import Mathlib

/-!
# The client's data, as the consumer reads it

`group.go` works on the values of `confluent-kafka-go`: offsets, topic partitions,
events and errors.  This file gives them as Lean data, with the fields the consumer
reads and nothing else.

An offset is an `int64` in the client, so it is a `BitVec 64` here, compared as a
signed number the way Go compares it.  `offset_succ_toInt` says when `Offset++`
is the integer successor: everywhere below the largest `int64`, where it wraps.

`checkPartitions` and `getPartitionKey` are called by the consumer but are not in
the source; they are modelled from the spec.
-/

namespace KafkaConsumer

/-! ### Offsets -/

/-- `kafka.Offset`: a signed 64-bit position in a partition. -/
abbrev Offset := BitVec 64

/-- `kafka.OffsetInvalid`, the client's `-1001` for an offset it does not know. -/
def offsetInvalid : Offset := BitVec.ofInt 64 (-1001)

/-- `Offset++` is the integer successor on every offset below the largest `int64`. -/
theorem offset_succ_toInt (x : Offset) (h : x.toInt < 2 ^ 63 - 1) :
    (x + 1).toInt = x.toInt + 1 := by
  have hx := x.isLt
  have h1 : (1 : Offset).toNat = 1 := rfl
  simp only [BitVec.toInt_eq_toNat_cond, BitVec.toNat_add, h1] at h ⊢
  split at h <;> split <;> omega

/-! ### Errors -/

abbrev ErrorCode := Int

/-- `kafka.ErrPartitionEOF`, librdkafka's `RD_KAFKA_RESP_ERR__PARTITION_EOF`. -/
def errPartitionEOF : ErrorCode := -191

/-- A non-nil Go `error` that the consumer meets or makes. -/
inductive Error
  | kafka (code : ErrorCode)
  /-- `errors.New(text)`; also stands for any error a callback or the client returns. -/
  | new (text : String)
  /-- `errors.Wrap(cause, text)` of a non-nil `cause`. -/
  | wrap (cause : Error) (text : String)
  deriving DecidableEq, Repr, Nonempty

/-- `errors.Wrap` of `pkg/errors`: it returns `nil` when the cause is `nil`. -/
def Errors.wrap (err : Option Error) (text : String) : Option Error :=
  err.map (Error.wrap · text)

@[simp] theorem Errors.wrap_none (text : String) : Errors.wrap none text = none := rfl

@[simp] theorem Errors.wrap_some (err : Error) (text : String) :
    Errors.wrap (some err) text = some (.wrap err text) := rfl

/-! ### Topic partitions -/

/-- `kafka.TopicPartition` without its `Metadata`, which the consumer never reads. -/
structure TopicPartition where
  topic : Option String
  partition : BitVec 32
  offset : Offset
  error : Option Error
  deriving DecidableEq, Repr, Nonempty

/-- Modelled from the spec: the key `getPartitionKey` builds is the pair
(topic, partition), compared structurally. -/
structure PartitionKey where
  topic : Option String
  partition : BitVec 32
  deriving DecidableEq, Repr, Nonempty

/-- Modelled from the spec: `getPartitionKey(topic, partition)`. -/
def getPartitionKey (topic : Option String) (partition : BitVec 32) : PartitionKey :=
  ⟨topic, partition⟩

def TopicPartition.key (tp : TopicPartition) : PartitionKey :=
  getPartitionKey tp.topic tp.partition

@[simp] theorem getPartitionKey_eq_key (tp : TopicPartition) :
    getPartitionKey tp.topic tp.partition = tp.key := rfl

/-- Modelled from the spec (§4.5): `checkPartitions` returns the first error embedded in
the descriptors, or none. -/
def checkPartitions : List TopicPartition → Option Error
  | [] => none
  | tp :: rest =>
    match tp.error with
    | some err => some err
    | none => checkPartitions rest

@[simp] theorem checkPartitions_eq_none {l : List TopicPartition} :
    checkPartitions l = none ↔ ∀ tp ∈ l, tp.error = none := by
  induction l with
  | nil => simp [checkPartitions]
  | cons tp rest ih =>
    cases h : tp.error <;> simp [checkPartitions, h, ih]

/-! ### Events -/

/-- `kafka.Message`: the consumer reads only its `TopicPartition`. -/
structure Message where
  topicPartition : TopicPartition
  deriving DecidableEq, Repr, Nonempty

/-- The events `reader.Events()` delivers, as the type switch of `listen` tells them
apart; `other` is its `default` arm. -/
inductive Event
  | assignedPartitions (partitions : List TopicPartition)
  | revokedPartitions (partitions : List TopicPartition)
  | message (msg : Message)
  | partitionEOF (tp : TopicPartition)
  | offsetsCommitted (error : Option Error) (offsets : List TopicPartition)
  | error (code : ErrorCode)
  | other
  deriving DecidableEq, Repr, Nonempty

end KafkaConsumer
