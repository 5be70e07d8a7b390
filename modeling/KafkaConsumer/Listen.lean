import KafkaConsumer.Offsets

/-!
# The event loop

`Consumer.listen` and the handlers it calls, as they run on one worker's task.  The
loop is single-threaded, so it is a function: it reads the consumer's fields, threads
the offset tracker and the trace of what it has done, and may panic.

The broker and the user's callbacks are fields of `Consumer`, each answering from the
trace so far, so a theorem over all consumers is one over every answer and every result
of the callbacks, panics included.  `Loop` keeps the state when a panic unwinds, because
the deferred calls of `listen` run on it.  The select takes the cases of a list of
`Input`s; when the list runs out first, `listen` is still `waiting` at its select.
-/

namespace KafkaConsumer

instance instDecidableEqExcept {ε α : Type} [DecidableEq ε] [DecidableEq α] : DecidableEq (Except ε α)
  | .error a, .error b => decidable_of_iff (a = b) (by simp)
  | .ok a, .ok b => decidable_of_iff (a = b) (by simp)
  | .error _, .ok _ => isFalse (by simp)
  | .ok _, .error _ => isFalse (by simp)

/-- A Go call returns or panics; a panic carries its value. -/
inductive Outcome (α : Type)
  | ok (a : α)
  | panic (value : String)
  deriving DecidableEq, Repr, Nonempty

/-- What the event loop did: one entry per case its select took and per call it made,
with what the call returned. -/
inductive Obs
  /-- The select took `ev := <-c.reader.Events()`. -/
  | event (ev : Event)
  /-- The select took `<-offsetsTicker.C`. -/
  | tick
  | subscribeTopics (topics : List String) (err : Option Error)
  | commitOffsets (offsets : List TopicPartition) (result : Except Error (List TopicPartition))
  | committed (partitions : List TopicPartition) (result : Except Error (List TopicPartition))
  | assign (partitions : List TopicPartition) (err : Option Error)
  | unassign (err : Option Error)
  | unsubscribe (err : Option Error)
  | close (err : Option Error)
  | onProcess (msg : Message) (result : Outcome (Option Error))
  /-- `OnCommit` called for the descriptor `tp` of the success list, with `topic` as its
  topic argument and `tp`'s partition and offset. -/
  | onCommit (topic : String) (tp : TopicPartition) (committed : Nat) (result : Outcome Unit)
  | onError (err : Error) (result : Outcome Unit)
  | onRevoke (partitions : List TopicPartition) (result : Outcome Unit)
  | onRebalance (partitions : List TopicPartition) (result : Outcome Unit)
  deriving DecidableEq, Repr, Nonempty

/-- `*kafka.Consumer`, the reader: each call answers from the trace so far. -/
structure Reader where
  subscribeTopics : List Obs → List String → Option Error
  commitOffsets : List Obs → List TopicPartition → Except Error (List TopicPartition)
  committed : List Obs → List TopicPartition → Except Error (List TopicPartition)
  assign : List Obs → List TopicPartition → Option Error
  unassign : List Obs → Option Error
  unsubscribe : List Obs → Option Error
  close : List Obs → Option Error

/-- The fields of `Consumer` that `listen` reads.  The callbacks are the user's (the
no-op defaults of `New` included), answering from the trace so far. -/
structure Consumer where
  commitOffsetCount : Int
  topics : List String
  reader : Reader
  onCommit : List Obs → String → BitVec 32 → Offset → Nat → Outcome Unit
  onError : List Obs → Error → Outcome Unit
  onProcess : List Obs → Message → Outcome (Option Error)
  onRevoke : List Obs → List TopicPartition → Outcome Unit
  onRebalance : List Obs → List TopicPartition → Outcome Unit

/-- The loop's state: the offset tracker it owns and its trace. -/
structure St where
  offsets : Offsets
  trace : List Obs

/-- A computation of the event loop.  A panic keeps the state it reached. -/
def Loop (α : Type) : Type := Consumer → St → Outcome α × St

namespace Loop

/-- Run `x`, then `f` on its value; a panic skips `f`. -/
protected def bind (x : Loop α) (f : α → Loop β) : Loop β := fun c s =>
  match x c s with
  | (.ok a, s') => f a c s'
  | (.panic v, s') => (.panic v, s')

instance : Monad Loop where
  pure a := fun _ s => (.ok a, s)
  bind := Loop.bind

@[simp] theorem pure_apply (a : α) (c : Consumer) (s : St) :
    (pure a : Loop α) c s = (.ok a, s) := rfl

@[simp] theorem pure_bind (a : α) (f : α → Loop β) : (pure a >>= f) = f a := rfl

@[simp] theorem bind_apply (x : Loop α) (f : α → Loop β) (c : Consumer) (s : St) :
    (x >>= f) c s = match x c s with
      | (.ok a, s') => f a c s'
      | (.panic v, s') => (.panic v, s') := rfl

theorem bind_ok {x : Loop α} {f : α → Loop β} {c : Consumer} {s : St} {b : β}
    (h : ((x >>= f) c s).1 = .ok b) : ∃ a, (x c s).1 = .ok a ∧ (f a c (x c s).2).1 = .ok b := by
  simp only [bind_apply] at h
  revert h
  rcases x c s with ⟨_ | v, s'⟩ <;> simp

theorem bind_of_ok {x : Loop α} {f : α → Loop β} {c : Consumer} {s : St} {a : α}
    (h : (x c s).1 = .ok a) : (x >>= f) c s = f a c (x c s).2 := by
  simp only [bind_apply]
  rcases hx : x c s with ⟨_ | v, s'⟩ <;> rw [hx] at h <;> cases h
  rfl

def consumer : Loop Consumer := fun c s => (.ok c, s)

def offsets : Loop Offsets := fun _ s => (.ok s.offsets, s)

def modifyOffsets (f : Offsets → Offsets) : Loop Unit := fun _ s =>
  (.ok (), { s with offsets := f s.offsets })

/-- A call to the reader: it answers from the trace, and the trace records it. -/
def readerCall (answer : Reader → List Obs → α) (record : α → Obs) : Loop α := fun c s =>
  (.ok (answer c.reader s.trace), { s with trace := s.trace ++ [record (answer c.reader s.trace)] })

/-- A call to a callback: it returns or panics, and the trace records which. -/
def callback (answer : Consumer → List Obs → Outcome α) (record : Outcome α → Obs) : Loop α :=
  fun c s => (answer c s.trace, { s with trace := s.trace ++ [record (answer c s.trace)] })

def selected (o : Obs) : Loop Unit := fun _ s => (.ok (), { s with trace := s.trace ++ [o] })

@[simp] theorem consumer_apply (c : Consumer) (s : St) : consumer c s = (.ok c, s) := rfl

@[simp] theorem offsets_apply (c : Consumer) (s : St) : offsets c s = (.ok s.offsets, s) := rfl

@[simp] theorem modifyOffsets_apply (f : Offsets → Offsets) (c : Consumer) (s : St) :
    modifyOffsets f c s = (.ok (), { s with offsets := f s.offsets }) := rfl

@[simp] theorem readerCall_apply (answer : Reader → List Obs → α) (record : α → Obs)
    (c : Consumer) (s : St) :
    readerCall answer record c s =
      (.ok (answer c.reader s.trace),
        { s with trace := s.trace ++ [record (answer c.reader s.trace)] }) := rfl

@[simp] theorem callback_apply (answer : Consumer → List Obs → Outcome α) (record : Outcome α → Obs)
    (c : Consumer) (s : St) :
    callback answer record c s =
      (answer c s.trace, { s with trace := s.trace ++ [record (answer c s.trace)] }) := rfl

@[simp] theorem selected_apply (o : Obs) (c : Consumer) (s : St) :
    selected o c s = (.ok (), { s with trace := s.trace ++ [o] }) := rfl

end Loop

open Loop

/-! ### The calls

Each is the call of the source it is named after, on `c.reader` or of a callback `c.onX`;
`Committed` is called with a timeout of 5000 ms. -/

def readerSubscribeTopics (topics : List String) : Loop (Option Error) :=
  readerCall (fun r h => r.subscribeTopics h topics) (.subscribeTopics topics)

def readerCommitOffsets (offsets : List TopicPartition) :
    Loop (Except Error (List TopicPartition)) :=
  readerCall (fun r h => r.commitOffsets h offsets) (.commitOffsets offsets)

/-- `c.reader.Committed(partitions, 5000)`. -/
def readerCommitted (partitions : List TopicPartition) :
    Loop (Except Error (List TopicPartition)) :=
  readerCall (fun r h => r.committed h partitions) (.committed partitions)

def readerAssign (partitions : List TopicPartition) : Loop (Option Error) :=
  readerCall (fun r h => r.assign h partitions) (.assign partitions)

def readerUnassign : Loop (Option Error) :=
  readerCall (fun r h => r.unassign h) .unassign

def readerUnsubscribe : Loop (Option Error) :=
  readerCall (fun r h => r.unsubscribe h) .unsubscribe

def readerClose : Loop (Option Error) :=
  readerCall (fun r h => r.close h) .close

def onError (err : Error) : Loop Unit :=
  callback (fun c h => c.onError h err) (.onError err)

def onCommit (topic : String) (item : TopicPartition) (countCommitted : Nat) : Loop Unit :=
  callback (fun c h => c.onCommit h topic item.partition item.offset countCommitted)
    (.onCommit topic item countCommitted)

def onProcess (e : Message) : Loop (Option Error) :=
  callback (fun c h => c.onProcess h e) (.onProcess e)

def onRevoke (partitions : List TopicPartition) : Loop Unit :=
  callback (fun c h => c.onRevoke h partitions) (.onRevoke partitions)

def onRebalance (partitions : List TopicPartition) : Loop Unit :=
  callback (fun c h => c.onRebalance h partitions) (.onRebalance partitions)

/-- The `for` loop of `commitOffsets` over the success list; `topic` is declared before
it and changes only when an item has a topic. -/
def commitEach (count : PartitionKey → Nat) : String → List TopicPartition → Loop Unit
  | _, [] => pure ()
  | topic, item :: rest => do
    modifyOffsets (·.remove item)
    let topic := item.topic.getD topic
    onCommit topic item (count (getPartitionKey item.topic item.partition))
    commitEach count topic rest

def commitOffsets : Loop Unit := do
  let (list, count) := (← offsets).get
  if 0 < list.length then
    match ← readerCommitOffsets list with
    | .error err => onError err
    | .ok success =>
      match checkPartitions success with
      | some err => onError err
      | none => commitEach count "" success

/-- The loop of `handleRebalance` over the committed offsets: `item.Offset++` when the
offset is not negative. -/
def incrementOffset (item : TopicPartition) : TopicPartition :=
  if BitVec.sle 0 item.offset then { item with offset := item.offset + 1 } else item

def handleRebalance (partitions : List TopicPartition) : Loop (Option Error) := do
  commitOffsets
  modifyOffsets (·.clear)
  if let some err := checkPartitions partitions then
    onError err
    return some err
  match ← readerCommitted partitions with
  | .error err =>
    onError err
    return some err
  | .ok committedOffsets =>
    let committedOffsets := committedOffsets.map incrementOffset
    if let some err ← readerAssign committedOffsets then
      onError err
      return some err
    onRebalance partitions
    return none

def handleRevoke (partitions : List TopicPartition) : Loop (Option Error) := do
  commitOffsets
  modifyOffsets (·.clear)
  if let some err := checkPartitions partitions then
    onError err
    return some err
  if let some err ← readerUnassign then
    onError err
    return some err
  onRevoke partitions
  return none

def handleMessage (e : Message) : Loop (Option Error) := do
  if let some err := e.topicPartition.error then
    onError err
    return some err
  if let some err ← onProcess e then
    return some err
  modifyOffsets (·.add e.topicPartition)
  let c ← consumer
  if 0 < c.commitOffsetCount then
    if c.commitOffsetCount ≤ ((← offsets).counter : Int) then
      commitOffsets
  return none

/-- The error a `PartitionEOF` event may carry without failing the loop. -/
def Error.isPartitionEOF : Error → Bool
  | .kafka code => code = errPartitionEOF
  | _ => false

def handlePartitionEOF (e : TopicPartition) : Loop (Option Error) := do
  commitOffsets
  modifyOffsets (·.clear)
  if let some err := e.error then
    if !err.isPartitionEOF then
      onError err
      return some err
  return none

def handleOffsetCommitted (error : Option Error) (offsets : List TopicPartition) :
    Loop (Option Error) := do
  if let some err := error then
    onError err
    return some err
  if let some err := checkPartitions offsets then
    onError err
    return some err
  return none

/-! ### The loop -/

/-- A case the select of `listen` takes. -/
inductive Input
  | done
  | tick
  | event (ev : Event)
  deriving DecidableEq, Repr, Nonempty

/-- Where `listen` stands: back at its select, or returned with `err`. -/
inductive Status
  | waiting
  | returned (err : Option Error)
  deriving DecidableEq, Repr, Nonempty

/-- A handler's `if err := ...; err != nil { return err }` in the select. -/
def exitOnError (x : Loop (Option Error)) : Loop Status := do
  match ← x with
  | some err => return .returned (some err)
  | none => return .waiting

/-- One turn of the `for` of `listen`, on the case the select took. -/
def listenStep : Input → Loop Status
  | .done => return .returned none
  | .tick => do
    selected .tick
    commitOffsets
    return .waiting
  | .event ev => do
    selected (.event ev)
    match ev with
    | .assignedPartitions partitions => exitOnError (handleRebalance partitions)
    | .revokedPartitions partitions => exitOnError (handleRevoke partitions)
    | .message msg => exitOnError (handleMessage msg)
    | .partitionEOF tp => exitOnError (handlePartitionEOF tp)
    | .offsetsCommitted error offsets => exitOnError (handleOffsetCommitted error offsets)
    | .error code => do
      onError (.kafka code)
      return .waiting
    | .other => return .waiting

/-- The `for { select { ... } }` of `listen` over the cases the select takes. -/
def loop : List Input → Loop Status
  | [] => return .waiting
  | i :: is => do
    match ← listenStep i with
    | .waiting => loop is
    | .returned err => return .returned err

/-- A `defer d` over `x`: `d` runs once `x` has returned or panicked, not while it is
still waiting; a panic of `d` replaces the outcome. -/
def deferring (x : Loop Status) (d : Loop Unit) : Loop Status := fun c s =>
  match x c s with
  | (.ok .waiting, s') => (.ok .waiting, s')
  | (o, s') =>
    match d c s' with
    | (.ok (), s'') => (o, s'')
    | (.panic v, s'') => (.panic v, s'')

/-- The first `defer` of `listen`: `Unsubscribe`, then `Unassign` if that worked, then
`Close`. -/
def closeReader : Loop Unit := do
  if (← readerUnsubscribe).isNone then
    let _ ← readerUnassign
  let _ ← readerClose

/-- `Consumer.listen`: subscribe, make a new tracker, then the loop with its two
defers, the last flush running before `closeReader`. -/
def listen (inputs : List Input) : Loop Status := do
  let c ← consumer
  if let some err ← readerSubscribeTopics c.topics then
    return .returned (Errors.wrap (some err) "subscribe to topics failed")
  modifyOffsets fun _ => Offsets.empty
  deferring (deferring (loop inputs) commitOffsets) closeReader

/-- `Consumer.Start` on its own task once it holds the lock: `closed` is whether the
context is already done.  The deferred `recover` turns a panic into a return, and
since the result is unnamed that return is `nil`. -/
def start (closed : Bool) (inputs : List Input) : Loop Status := fun c s =>
  if closed then (.ok (.returned (some (.new "consumer already closed"))), s)
  else
    match listen inputs c s with
    | (.panic _, s') => (.ok (.returned none), s')
    | r => r

end KafkaConsumer
