import KafkaConsumer.Counts

/-!
# What `OnCommit` is told

`commitOffsets` calls `OnCommit` once per acknowledged item, in order, with the item's
partition and offset and the count the snapshot of `Get` holds for its key.  Its topic
argument is `topic`, declared before the `for` and changed only when an item has a topic,
so an item without one is reported under the topic of the last item before it that had
one (`commitOffsets_reports`); when every item carries a topic, each is reported under its
own (`commitOffsets_reports_own_topic`).
-/

namespace KafkaConsumer

open Loop

/-- The topic of the last descriptor of `l` that has one; `topic` when none has. -/
def lastTopic (topic : String) (l : List TopicPartition) : String :=
  (l.filterMap TopicPartition.topic).getLast?.getD topic

@[simp] theorem lastTopic_nil (topic : String) : lastTopic topic [] = topic := rfl

theorem lastTopic_cons (topic : String) (d : TopicPartition) (l : List TopicPartition) :
    lastTopic topic (d :: l) = lastTopic (d.topic.getD topic) l := by
  cases h : d.topic <;> simp [lastTopic, h, List.filterMap_cons, List.getLast?_cons]

/-- With `OnCommit` returning normally, the `for` over `items` calls it once per item, in
order, with the count of the item's key, under the last topic so far. -/
theorem commitEach_trace {c : Consumer} (hoc : c.CommitReturns) (cnt : PartitionKey → Nat) :
    ∀ (topic : String) (items : List TopicPartition) (s : St),
      (commitEach cnt topic items c s).2.trace = s.trace ++ items.mapIdx fun j d =>
        .onCommit (lastTopic topic (items.take (j + 1))) d (cnt d.key) (.ok ())
  | _, [], s => by simp [commitEach]
  | topic, item :: rest, s => by
    simp only [commitEach, bind_apply, modifyOffsets_apply, onCommit, callback_apply,
      show ∀ h t p x n, c.onCommit h t p x n = .ok () from hoc, getPartitionKey_eq_key]
    rw [commitEach_trace hoc cnt _ rest]
    simp [lastTopic_cons]

/-- **`OnCommit` is called once per acknowledged descriptor, in order, with its
partition, offset and count, under the topic of the last descriptor so far that has
one.**  This is when `CommitOffsets` returns a list that passes `checkPartitions` and
`OnCommit` returns normally. -/
theorem commitOffsets_reports {c : Consumer} (hoc : c.CommitReturns) {s : St}
    {success : List TopicPartition} (hl : 0 < s.offsets.get.1.length)
    (hr : c.reader.commitOffsets s.trace s.offsets.get.1 = .ok success)
    (hck : checkPartitions success = none) :
    (commitOffsets c s).2.trace = s.trace ++ .commitOffsets s.offsets.get.1 (.ok success) ::
      success.mapIdx fun j d =>
        .onCommit (lastTopic "" (success.take (j + 1))) d (s.offsets.count d.key) (.ok ()) := by
  simp only [commitOffsets, Loop.pure_bind, bind_apply, offsets_apply, hl, if_true,
    readerCommitOffsets, readerCall_apply, hr, hck, Offsets.get_count]
  rw [commitEach_trace hoc]
  simp

def ordersOffsets : Offsets := Offsets.empty.add ⟨some "orders", 0, 5, none⟩

/-- A reader whose `CommitOffsets` acknowledges partition 0 of `orders` and then a
descriptor without a topic, for partition 1. -/
def topiclessReader : Reader where
  subscribeTopics _ _ := none
  commitOffsets _ _ := .ok [⟨some "orders", 0, 6, none⟩, ⟨none, 1, 7, none⟩]
  committed _ l := .ok l
  assign _ _ := none
  unassign _ := none
  unsubscribe _ := none
  close _ := none

def topiclessConsumer : Consumer where
  commitOffsetCount := 0
  topics := ["orders"]
  reader := topiclessReader
  onCommit _ _ _ _ _ := .ok ()
  onError _ _ := .ok ()
  onProcess _ _ := .ok none
  onRevoke _ _ := .ok ()
  onRebalance _ _ := .ok ()

theorem commitOffsets_reports_topiclessReader :
    topiclessConsumer.CommitReturns ∧ 0 < ordersOffsets.get.1.length ∧
      topiclessReader.commitOffsets [] ordersOffsets.get.1 =
        .ok [⟨some "orders", 0, 6, none⟩, ⟨none, 1, 7, none⟩] ∧
      checkPartitions [⟨some "orders", 0, 6, none⟩, ⟨none, 1, 7, none⟩] = none ∧
      (commitOffsets topiclessConsumer ⟨ordersOffsets, []⟩).2.trace =
        [] ++ .commitOffsets ordersOffsets.get.1 (.ok [⟨some "orders", 0, 6, none⟩, ⟨none, 1, 7, none⟩]) ::
          [⟨some "orders", 0, 6, none⟩, ⟨none, 1, 7, none⟩].mapIdx fun j d =>
            .onCommit (lastTopic "" ([⟨some "orders", 0, 6, none⟩, ⟨none, 1, 7, none⟩].take (j + 1))) d
              (ordersOffsets.count d.key) (.ok ()) :=
  ⟨fun _ _ _ _ _ => rfl, by decide, rfl, rfl, commitOffsets_reports (c := topiclessConsumer)
    (s := ⟨ordersOffsets, []⟩) (fun _ _ _ _ _ => rfl) (by decide) rfl rfl⟩

/-- With every acknowledged descriptor carrying a topic, each is reported under its own. -/
theorem commitEach_trace_of_topics {c : Consumer} (hoc : c.CommitReturns) (cnt : PartitionKey → Nat) :
    ∀ (topic : String) (items : List TopicPartition) (s : St), (∀ d ∈ items, d.topic.isSome) →
      (commitEach cnt topic items c s).2.trace = s.trace ++ items.map fun d =>
        .onCommit (d.topic.getD "") d (cnt d.key) (.ok ())
  | _, [], s, _ => by simp [commitEach]
  | topic, item :: rest, s, h => by
    obtain ⟨x, hx⟩ := Option.isSome_iff_exists.mp (h item (List.mem_cons_self _ _))
    simp only [commitEach, bind_apply, modifyOffsets_apply, onCommit, callback_apply,
      show ∀ h t p x n, c.onCommit h t p x n = .ok () from hoc, getPartitionKey_eq_key]
    rw [commitEach_trace_of_topics hoc cnt _ rest _ fun d hd => h d (List.mem_cons_of_mem _ hd)]
    simp [hx]

/-- **`OnCommit` is told each acknowledged descriptor's own topic, partition and offset,
once per descriptor and in order, with the count the snapshot holds for its key**, when
`CommitOffsets` returns a list that passes `checkPartitions` and whose descriptors all
carry a topic, as those of `*kafka.Consumer` do, and `OnCommit` returns normally. -/
theorem commitOffsets_reports_own_topic {c : Consumer} (hoc : c.CommitReturns) {s : St}
    {success : List TopicPartition} (hl : 0 < s.offsets.get.1.length)
    (hr : c.reader.commitOffsets s.trace s.offsets.get.1 = .ok success)
    (hck : checkPartitions success = none) (htopic : ∀ d ∈ success, d.topic.isSome) :
    (commitOffsets c s).2.trace = s.trace ++ .commitOffsets s.offsets.get.1 (.ok success) ::
      success.map fun d => .onCommit (d.topic.getD "") d (s.offsets.count d.key) (.ok ()) := by
  simp only [commitOffsets, Loop.pure_bind, bind_apply, offsets_apply, hl, if_true,
    readerCommitOffsets, readerCall_apply, hr, hck, Offsets.get_count]
  rw [commitEach_trace_of_topics hoc _ _ _ _ htopic]
  simp

/-- A reader whose `CommitOffsets` acknowledges the descriptors it was given. -/
def echoReader : Reader := { topiclessReader with commitOffsets := fun _ l => .ok l }

def echoConsumer : Consumer := { topiclessConsumer with reader := echoReader }

theorem commitOffsets_reports_own_topic_echo :
    echoConsumer.CommitReturns ∧ 0 < ordersOffsets.get.1.length ∧
      echoReader.commitOffsets [] ordersOffsets.get.1 = .ok ordersOffsets.get.1 ∧
      checkPartitions ordersOffsets.get.1 = none ∧ (∀ d ∈ ordersOffsets.get.1, d.topic.isSome) ∧
      (commitOffsets echoConsumer ⟨ordersOffsets, []⟩).2.trace =
        [] ++ .commitOffsets ordersOffsets.get.1 (.ok ordersOffsets.get.1) ::
          ordersOffsets.get.1.map fun d => .onCommit (d.topic.getD "") d (ordersOffsets.count d.key) (.ok ()) :=
  have htopic : ∀ d ∈ ordersOffsets.get.1, d.topic.isSome := by decide
  ⟨fun _ _ _ _ _ => rfl, by decide, rfl, rfl, htopic,
    commitOffsets_reports_own_topic (c := echoConsumer) (s := ⟨ordersOffsets, []⟩) (fun _ _ _ _ _ => rfl)
      (by decide) rfl rfl htopic⟩

end KafkaConsumer
