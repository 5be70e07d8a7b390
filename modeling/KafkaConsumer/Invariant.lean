import KafkaConsumer.Listen

/-!
# Invariants of the event loop

`Keeps c I x`: run with the fields of `c` from a state where `I` holds, `x` ends,
returning or panicking, in a state where `I` holds.  The handlers change the tracker in
three ways only (`Add`, `Remove` and `Clear`), and most of their entries are `Plain`, read
by no invariant.  So this file proves once that `handleRebalance`, `handleRevoke`,
`handlePartitionEOF`, `handleOffsetCommitted` and `closeReader` keep every invariant that
plain entries, `Clear` and the flush keep; the later modules prove only the steps their
invariants read.
-/

namespace KafkaConsumer

open Loop

/-- An entry that no invariant of the loop reads: the ticker, and every call but
`CommitOffsets`, `OnCommit`, `OnProcess`, `Committed` and `Close`. -/
def Obs.Plain : Obs → Prop
  | .event _ | .commitOffsets _ _ | .onProcess _ _ | .onCommit _ _ _ _ | .committed _ _
  | .close _ => False
  | _ => True

/-- An entry that the loop and its flush may make: all but those of `SubscribeTopics`,
`Unsubscribe` and `Close`, which only `listen` and its closing defer make. -/
def Obs.InLoop : Obs → Prop
  | .subscribeTopics _ _ | .unsubscribe _ | .close _ => False
  | _ => True

/-- The descriptor of a message accepted at this entry: it had no error and
`OnProcess` returned nil. -/
def Obs.accepted : Obs → Option TopicPartition
  | .onProcess m (.ok none) => if m.topicPartition.error = none then some m.topicPartition else none
  | _ => none

/-- `x` keeps `I` when run with the fields of `c`. -/
def Keeps (c : Consumer) (I : St → Prop) (x : Loop α) : Prop :=
  ∀ s, I s → I (x c s).2

/-- `I` survives a plain entry. -/
def PlainStable (I : St → Prop) : Prop :=
  ∀ s o, o.Plain → I s → I { s with trace := s.trace ++ [o] }

/-- `I` survives a plain entry that the loop may make. -/
def LoopStable (I : St → Prop) : Prop :=
  ∀ s o, o.Plain → o.InLoop → I s → I { s with trace := s.trace ++ [o] }

theorem PlainStable.loopStable {I : St → Prop} (h : PlainStable I) : LoopStable I :=
  fun s o ho _ => h s o ho

def CommittedStable (I : St → Prop) : Prop :=
  ∀ s ps r, I s → I { s with trace := s.trace ++ [.committed ps r] }

def CloseStable (I : St → Prop) : Prop :=
  ∀ s r, I s → I { s with trace := s.trace ++ [.close r] }

def ClearStable (I : St → Prop) : Prop :=
  ∀ s, I s → I { s with offsets := s.offsets.clear }

/-- `deferring x d` is `x` while `x` waits; otherwise it ends where `d`, run after `x`,
leaves the state. -/
theorem deferring_cases (x : Loop Status) (d : Loop Unit) (c : Consumer) (s : St) :
    ((x c s).1 = .ok .waiting ∧ deferring x d c s = x c s) ∨
      ((x c s).1 ≠ .ok .waiting ∧ (deferring x d c s).2 = (d c (x c s).2).2) := by
  unfold deferring
  rcases x c s with ⟨o, s'⟩
  by_cases h : o = .ok .waiting
  · exact .inl ⟨h, by subst h; rfl⟩
  · refine .inr ⟨h, ?_⟩
    split
    · simp_all
    · next heq =>
      obtain ⟨rfl, rfl⟩ := Prod.mk.inj heq
      rcases d c s' with ⟨_ | _, _⟩ <;> rfl

theorem deferring_waiting {x : Loop Status} {d : Loop Unit} {c : Consumer} {s : St}
    (h : (x c s).1 = .ok .waiting) : deferring x d c s = x c s :=
  (deferring_cases x d c s).elim And.right fun h' => absurd h h'.1

theorem deferring_ok {x : Loop Status} {d : Loop Unit} {c : Consumer} {s : St} {st : Status}
    (h : (deferring x d c s).1 = .ok st) : (x c s).1 = .ok st := by
  unfold deferring at h
  revert h
  rcases x c s with ⟨o, s'⟩
  cases o with
  | ok st' => cases st' <;> dsimp only <;> rcases d c s' with ⟨_ | _, _⟩ <;> simp
  | panic v => dsimp only; rcases d c s' with ⟨_ | _, _⟩ <;> simp

theorem snoc_eq_append_cons {T A B : List Obs} {o x : Obs} (h : T ++ [o] = A ++ x :: B) :
    (A = T ∧ x = o ∧ B = []) ∨ ∃ B', B = B' ++ [o] ∧ T = A ++ x :: B' := by
  rcases List.eq_nil_or_concat B with rfl | ⟨B', b, rfl⟩
  · obtain ⟨h1, h2⟩ := List.append_inj' h rfl
    exact .inl ⟨h1.symm, (List.cons.inj h2).1.symm, rfl⟩
  · rw [List.concat_eq_append, ← List.cons_append, ← List.append_assoc] at h
    obtain ⟨h1, h2⟩ := List.append_inj' h rfl
    exact .inr ⟨B', by simp_all, h1⟩

namespace Keeps

variable {c : Consumer} {I : St → Prop}

theorem pure' (a : α) : Keeps c I (pure a) := fun _ h => h

theorem or {J : St → Prop} {x : Loop α} (hI : Keeps c I x) (hJ : Keeps c J x) :
    Keeps c (fun s => I s ∨ J s) x := fun s hs => hs.imp (hI s) (hJ s)

theorem bind {x : Loop α} {f : α → Loop β} (hx : Keeps c I x) (hf : ∀ a, Keeps c I (f a)) :
    Keeps c I (x >>= f) := by
  intro s hs
  have := hx s hs
  simp only [bind_apply]
  revert this
  rcases x c s with ⟨a | v, s'⟩
  · exact hf a s'
  · exact id

/-- Sequencing with a midcondition: `x` takes `P` to `Q`, `f` takes `Q` to `R`, and `Q`
gives `R` when `x` panics. -/
theorem seq {P Q R : St → Prop} {x : Loop α} {f : α → Loop β} (hx : ∀ s, P s → Q (x c s).2)
    (hf : ∀ a s, Q s → R (f a c s).2) (hQR : ∀ s, Q s → R s) :
    ∀ s, P s → R ((x >>= f) c s).2 := by
  intro s hs
  have := hx s hs
  simp only [bind_apply]
  revert this
  rcases x c s with ⟨a | v, s'⟩
  · exact hf a s'
  · exact hQR s'

theorem consumer' (f : Consumer → Loop α) (hf : Keeps c I (f c)) :
    Keeps c I (consumer >>= f) := fun s hs => hf s hs

theorem offsets' {f : Offsets → Loop α} (hf : ∀ s, I s → I (f s.offsets c s).2) :
    Keeps c I (offsets >>= f) := fun s hs => hf s hs

theorem modifyOffsets' {f : Offsets → Offsets} (hf : ∀ s, I s → I { s with offsets := f s.offsets }) :
    Keeps c I (modifyOffsets f) := fun s hs => hf s hs

theorem readerCall' {answer : Reader → List Obs → α} {record : α → Obs} (hI : PlainStable I)
    (hr : ∀ a, (record a).Plain) : Keeps c I (readerCall answer record) :=
  fun s hs => hI s _ (hr _) hs

theorem callback' {answer : Consumer → List Obs → Outcome α} {record : Outcome α → Obs}
    (hI : LoopStable I) (hr : ∀ a, (record a).Plain ∧ (record a).InLoop) :
    Keeps c I (callback answer record) :=
  fun s hs => hI s _ (hr _).1 (hr _).2 hs

theorem selected' (hI : LoopStable I) (o : Obs) (ho : o.Plain) (hl : o.InLoop) :
    Keeps c I (selected o) :=
  fun s hs => hI s o ho hl hs

theorem onError' (hI : LoopStable I) (err : Error) : Keeps c I (onError err) :=
  callback' hI fun _ => ⟨trivial, trivial⟩

theorem onRevoke' (hI : LoopStable I) (ps : List TopicPartition) : Keeps c I (onRevoke ps) :=
  callback' hI fun _ => ⟨trivial, trivial⟩

theorem onRebalance' (hI : LoopStable I) (ps : List TopicPartition) :
    Keeps c I (onRebalance ps) :=
  callback' hI fun _ => ⟨trivial, trivial⟩

theorem readerSubscribeTopics' (hI : PlainStable I) (topics : List String) :
    Keeps c I (readerSubscribeTopics topics) :=
  readerCall' hI fun _ => trivial

theorem readerCommitted' (hI : CommittedStable I) (ps : List TopicPartition) :
    Keeps c I (readerCommitted ps) :=
  fun s hs => hI s _ _ hs

theorem readerAssign' (hI : LoopStable I) (ps : List TopicPartition) :
    Keeps c I (readerAssign ps) :=
  fun s hs => hI s _ trivial trivial hs

theorem readerUnassign' (hI : LoopStable I) : Keeps c I readerUnassign :=
  fun s hs => hI s _ trivial trivial hs

theorem readerUnsubscribe' (hI : PlainStable I) : Keeps c I readerUnsubscribe :=
  readerCall' hI fun _ => trivial

theorem readerClose' (hI : CloseStable I) : Keeps c I readerClose :=
  fun s hs => hI s _ hs

theorem deferring' {P : St → Prop} {x : Loop Status} {d : Loop Unit}
    (hx : ∀ s, P s → I (x c s).2) (hd : Keeps c I d) :
    ∀ s, P s → I (deferring x d c s).2 := by
  intro s hs
  rcases deferring_cases x d c s with ⟨-, h⟩ | ⟨-, h⟩
  · rw [h]
    exact hx s hs
  · rw [h]
    exact hd _ (hx s hs)

/-- The boundary handlers open with the flush and `Clear`; an invariant that survives
the two together survives them before any tail. -/
theorem flushClear {tail : Loop α}
    (hfc : Keeps c I (commitOffsets >>= fun _ => modifyOffsets (·.clear))) (ht : Keeps c I tail) :
    Keeps c I (commitOffsets >>= fun _ => modifyOffsets (·.clear) >>= fun _ => tail) := by
  intro s hs
  have h1 := hfc s hs
  simp only [bind_apply, modifyOffsets_apply] at h1 ⊢
  revert h1
  rcases commitOffsets c s with ⟨_ | _, s₁⟩
  · exact ht _
  · exact id

end Keeps

open Keeps

section Handlers

variable {c : Consumer} {I : St → Prop}

theorem keeps_exitOnError {x : Loop (Option Error)} (hx : Keeps c I x) :
    Keeps c I (exitOnError x) :=
  bind hx fun r => by cases r <;> exact pure' _

theorem exitOnError_waiting {x : Loop (Option Error)} {s : St}
    (h : (exitOnError x c s).1 = .ok .waiting) : x c s = (.ok none, (exitOnError x c s).2) := by
  simp only [exitOnError, bind_apply] at h ⊢
  revert h
  rcases x c s with ⟨o, s'⟩
  cases o with
  | ok a => cases a <;> simp
  | panic v => simp

theorem keeps_handleRebalance (hI : LoopStable I) (hcom : CommittedStable I)
    (hfc : Keeps c I (commitOffsets >>= fun _ => modifyOffsets (·.clear))) (partitions : List TopicPartition) :
    Keeps c I (handleRebalance partitions) := by
  simp only [handleRebalance, Loop.pure_bind]
  refine flushClear hfc ?_
  split
  · exact bind (onError' hI _) fun _ => pure' _
  · refine bind (readerCommitted' hcom _) fun r => ?_
    cases r with
    | error err => exact bind (onError' hI _) fun _ => pure' _
    | ok committed =>
      refine bind (readerAssign' hI _) fun r => ?_
      cases r with
      | some err => exact bind (onError' hI _) fun _ => pure' _
      | none => exact bind (onRebalance' hI _) fun _ => pure' _

theorem keeps_handleRevoke (hI : LoopStable I)
    (hfc : Keeps c I (commitOffsets >>= fun _ => modifyOffsets (·.clear))) (partitions : List TopicPartition) :
    Keeps c I (handleRevoke partitions) := by
  simp only [handleRevoke, Loop.pure_bind]
  refine flushClear hfc ?_
  split
  · exact bind (onError' hI _) fun _ => pure' _
  · refine bind (readerUnassign' hI) fun r => ?_
    cases r with
    | some err => exact bind (onError' hI _) fun _ => pure' _
    | none => exact bind (onRevoke' hI _) fun _ => pure' _

theorem keeps_handlePartitionEOF (hI : LoopStable I)
    (hfc : Keeps c I (commitOffsets >>= fun _ => modifyOffsets (·.clear))) (tp : TopicPartition) :
    Keeps c I (handlePartitionEOF tp) := by
  simp only [handlePartitionEOF, Loop.pure_bind]
  refine flushClear hfc ?_
  split
  · split
    · exact bind (onError' hI _) fun _ => pure' _
    · exact pure' _
  · exact pure' _

theorem keeps_handleOffsetCommitted (hI : LoopStable I) (error : Option Error)
    (offsets : List TopicPartition) : Keeps c I (handleOffsetCommitted error offsets) := by
  simp only [handleOffsetCommitted, Loop.pure_bind]
  split
  · exact bind (onError' hI _) fun _ => pure' _
  · split
    · exact bind (onError' hI _) fun _ => pure' _
    · exact pure' _

theorem keeps_closeReader (hI : PlainStable I) (hc : CloseStable I) : Keeps c I closeReader := by
  simp only [closeReader, Loop.pure_bind]
  refine bind (readerUnsubscribe' hI) fun r => ?_
  split
  · exact bind (readerUnassign' hI.loopStable) fun _ => bind (readerClose' hc) fun _ => pure' _
  · exact bind (readerClose' hc) fun _ => pure' _

theorem commitOffsets_of_empty {s : St} (h : s.offsets.entries = []) :
    commitOffsets c s = (.ok (), s) := by
  simp [commitOffsets, Offsets.get, h]

/-- `handleMessage` keeps every invariant that its plain entries, a refused message, an
accepted one and the flush keep. -/
theorem keeps_handleMessage_of (hI : LoopStable I) {e : Message}
    (hproc : ∀ s r, r ≠ .ok none → I s → I { s with trace := s.trace ++ [.onProcess e r] })
    (hacc : ∀ s, e.topicPartition.error = none → I s →
      I ⟨s.offsets.add e.topicPartition, s.trace ++ [.onProcess e (.ok none)]⟩)
    (hf : Keeps c I commitOffsets) : Keeps c I (handleMessage e) := by
  simp only [handleMessage, Loop.pure_bind]
  split
  · exact bind (onError' hI _) fun _ => pure' _
  · rename_i herr
    have he : e.topicPartition.error = none := by
      cases h : e.topicPartition.error
      · rfl
      · exact absurd h (herr _)
    intro s hs
    simp only [bind_apply, onProcess, callback_apply]
    cases hp : c.onProcess s.trace e with
    | panic v => exact hproc s _ (by simp) hs
    | ok r =>
      cases r with
      | some err => exact hproc s _ (by simp) hs
      | none =>
        have hs' := hacc s he hs
        simp only [bind_apply, modifyOffsets_apply, consumer_apply]
        split
        · simp only [bind_apply, offsets_apply]
          split
          · exact bind hf (fun _ => pure' _) _ hs'
          · exact hs'
        · exact hs'

/-- Every `CommitOffsets` call succeeds on its whole input: it returns descriptors
without errors for every partition of its input. -/
def Reader.CommitsWhole (r : Reader) : Prop :=
  ∀ h l, ∃ success, r.commitOffsets h l = .ok success ∧ checkPartitions success = none ∧
    ∀ d ∈ l, d.key ∈ success.map TopicPartition.key

/-- When every commit goes through, the flush of a tracker with entries is
`CommitOffsets` on its list and then the `for` over what the call acknowledged. -/
theorem commitOffsets_of_whole (hw : c.reader.CommitsWhole) (s : St)
    (hl : 0 < s.offsets.get.1.length) :
    ∃ success, (∀ d ∈ s.offsets.get.1, d.key ∈ success.map TopicPartition.key) ∧
      commitOffsets c s = commitEach s.offsets.count "" success c
        { s with trace := s.trace ++ [.commitOffsets s.offsets.get.1 (.ok success)] } := by
  obtain ⟨success, hr, hck, hcov⟩ := hw s.trace s.offsets.get.1
  refine ⟨success, hcov, ?_⟩
  simp only [commitOffsets, Loop.pure_bind, bind_apply, offsets_apply, hl, if_true,
    readerCommitOffsets, readerCall_apply, hr, hck, Offsets.get_count]

/-- The `for` of `commitOffsets` keeps every invariant that `Remove` followed by the
entry of `OnCommit` keeps. -/
theorem keeps_commitEach (hstep : ∀ s item t n r, I s →
    I ⟨s.offsets.remove item, s.trace ++ [.onCommit t item n r]⟩) (count : PartitionKey → Nat) :
    ∀ topic items, Keeps c I (commitEach count topic items)
  | _, [] => pure' _
  | _, item :: rest => fun s hs => by
    simp only [commitEach, bind_apply (modifyOffsets _), modifyOffsets_apply]
    refine seq (P := (· = { s with offsets := s.offsets.remove item })) (Q := I) ?_
      (fun _ => keeps_commitEach hstep count _ rest) (fun _ h => h) _ rfl
    rintro _ rfl
    simp only [onCommit, callback_apply]
    exact hstep s item _ _ _ hs

/-- The flush keeps every invariant that its entries keep, with `Remove` after each
`OnCommit`. -/
theorem keeps_commitOffsets_of_entries
    (hcall : ∀ s l r, I s → I { s with trace := s.trace ++ [.commitOffsets l r] })
    (herr : ∀ s err r, I s → I { s with trace := s.trace ++ [.onError err r] })
    (hstep : ∀ s item t n r, I s → I ⟨s.offsets.remove item, s.trace ++ [.onCommit t item n r]⟩) :
    Keeps c I commitOffsets := by
  intro s hs
  simp only [commitOffsets, Loop.pure_bind, bind_apply, offsets_apply]
  split
  · refine bind (fun s hs => hcall s _ _ hs) (fun r => ?_) s hs
    split
    · exact fun s hs => herr s _ _ hs
    · split
      · exact fun s hs => herr s _ _ hs
      · exact keeps_commitEach hstep _ _ _
  · exact hs

/-- `I` reads no entry but the events, and not the tracker. -/
def Neutral (I : St → Prop) : Prop :=
  (∀ s o, (∀ ev, o ≠ .event ev) → I s → I { s with trace := s.trace ++ [o] }) ∧
    ∀ s f, I s → I { s with offsets := f }

theorem Neutral.plainStable (hI : Neutral I) : PlainStable I :=
  fun s o ho => hI.1 s o (by rintro ev rfl; exact ho)

theorem Neutral.keeps_commitOffsets (hI : Neutral I) : Keeps c I commitOffsets :=
  keeps_commitOffsets_of_entries (fun s _ _ => hI.1 s _ (by simp)) (fun s _ _ => hI.1 s _ (by simp))
    fun s _ _ _ _ hs => hI.2 _ _ (hI.1 s _ (by simp) hs)

theorem Neutral.keeps_handleRebalance (hI : Neutral I) (ps : List TopicPartition) :
    Keeps c I (handleRebalance ps) :=
  KafkaConsumer.keeps_handleRebalance hI.plainStable.loopStable (fun s _ _ hs => hI.1 s _ (by simp) hs)
    (bind hI.keeps_commitOffsets fun _ => modifyOffsets' fun s hs => hI.2 s _ hs) ps

theorem Neutral.keeps_handleMessage (hI : Neutral I) (e : Message) :
    Keeps c I (handleMessage e) :=
  keeps_handleMessage_of hI.plainStable.loopStable (fun s _ _ hs => hI.1 s _ (by simp) hs)
    (fun s _ hs => hI.2 _ _ (hI.1 s _ (by simp) hs)) hI.keeps_commitOffsets

/-! ### Handlers that open with `Clear` -/

def Empty (s : St) : Prop := s.offsets.entries = []

theorem clear_of_empty {s : St} (h : Empty s) : { s with offsets := s.offsets.clear } = s := by
  rw [Offsets.clear_of_entries_nil h]

theorem empty_plainStable : PlainStable Empty := fun _ _ _ h => h

theorem empty_clearStable : ClearStable Empty := fun _ _ => rfl

theorem keeps_commitOffsets_empty : Keeps c Empty commitOffsets := fun s hs => by
  rw [commitOffsets_of_empty hs]
  exact hs

theorem empty_flushClear : Keeps c Empty (commitOffsets >>= fun _ => modifyOffsets (·.clear)) :=
  bind keeps_commitOffsets_empty fun _ => modifyOffsets' empty_clearStable

/-- A handler that opens with the flush and `Clear`, and keeps an empty tracker empty,
leaves the tracker empty whenever it returns. -/
theorem empty_of_flush_clear {tail : Loop α}
    (hk : Keeps c Empty (commitOffsets >>= fun _ => modifyOffsets (·.clear) >>= fun _ => tail))
    {s s' : St} {a : α}
    (h : (commitOffsets >>= fun _ => modifyOffsets (·.clear) >>= fun _ => tail) c s = (.ok a, s')) :
    Empty s' := by
  simp only [bind_apply, modifyOffsets_apply] at h
  rcases hf : commitOffsets c s with ⟨_ | _, s₁⟩
  · rw [hf] at h
    have h0 := hk { s₁ with offsets := Offsets.empty } rfl
    simp only [bind_apply, modifyOffsets_apply, commitOffsets_of_empty (c := c) (s := { s₁ with offsets := Offsets.empty }) rfl] at h0
    dsimp only at h
    rw [show Offsets.empty.clear = s₁.offsets.clear from rfl, h] at h0
    exact h0
  · rw [hf] at h
    cases h

theorem handleRebalance_empty {ps : List TopicPartition} {s s' : St} {r : Option Error}
    (h : handleRebalance ps c s = (.ok r, s')) : Empty s' :=
  empty_of_flush_clear
    (keeps_handleRebalance empty_plainStable.loopStable (fun _ _ _ h => h) empty_flushClear ps) h

theorem handleRevoke_empty {ps : List TopicPartition} {s s' : St} {r : Option Error}
    (h : handleRevoke ps c s = (.ok r, s')) : Empty s' :=
  empty_of_flush_clear
    (keeps_handleRevoke empty_plainStable.loopStable empty_flushClear ps) h

theorem handlePartitionEOF_empty {tp : TopicPartition} {s s' : St} {r : Option Error}
    (h : handlePartitionEOF tp c s = (.ok r, s')) : Empty s' :=
  empty_of_flush_clear
    (keeps_handlePartitionEOF empty_plainStable.loopStable empty_flushClear tp) h

/-! ### Whole runs -/

def EventStable (I : St → Prop) : Prop :=
  ∀ s ev, I s → I { s with trace := s.trace ++ [.event ev] }

/-- A turn keeps every invariant that the handlers, the flush and a new event keep; an
`AssignedPartitions` event is taken together with its handler. -/
theorem keeps_listenStep_of (hI : LoopStable I)
    (hev : ∀ s ev, (∀ ps, ev ≠ .assignedPartitions ps) → I s → I { s with trace := s.trace ++ [.event ev] })
    (hf : Keeps c I commitOffsets) (hfc : Keeps c I (commitOffsets >>= fun _ => modifyOffsets (·.clear)))
    (hr : ∀ ps, Keeps c I (selected (.event (.assignedPartitions ps)) >>= fun _ => exitOnError (handleRebalance ps)))
    (hm : ∀ m, Keeps c I (handleMessage m)) : ∀ i, Keeps c I (listenStep i)
  | .done => pure' _
  | .tick => bind (selected' hI .tick trivial trivial) fun _ => bind hf fun _ => pure' _
  | .event ev => by
    cases ev with
    | assignedPartitions ps => exact hr ps
    | _ =>
      refine bind (fun s hs => hev s _ (by simp) hs) fun _ => ?_
      first
        | exact keeps_exitOnError (keeps_handleRevoke hI hfc _)
        | exact keeps_exitOnError (hm _)
        | exact keeps_exitOnError (keeps_handlePartitionEOF hI hfc _)
        | exact keeps_exitOnError (keeps_handleOffsetCommitted hI _ _)
        | exact bind (onError' hI _) fun _ => pure' _
        | exact pure' _

theorem keeps_listenStep (hI : LoopStable I) (hev : EventStable I) (hf : Keeps c I commitOffsets)
    (hfc : Keeps c I (commitOffsets >>= fun _ => modifyOffsets (·.clear)))
    (hr : ∀ ps, Keeps c I (handleRebalance ps))
    (hm : ∀ m, Keeps c I (handleMessage m)) : ∀ i, Keeps c I (listenStep i) :=
  keeps_listenStep_of hI (fun s ev _ => hev s ev) hf hfc
    (fun ps => bind (fun s hs => hev s _ hs) fun _ => keeps_exitOnError (hr ps)) hm

theorem keeps_loop (hstep : ∀ i, Keeps c I (listenStep i)) : ∀ inputs, Keeps c I (loop inputs)
  | [] => pure' _
  | i :: is => bind (hstep i) fun st => by
    cases st with
    | waiting => exact keeps_loop hstep is
    | returned err => exact pure' _

/-- What `listen` does: subscribe, and on success run the loop with its defers on a new
tracker. -/
theorem listen_apply (inputs : List Input) (s : St) :
    listen inputs c s =
      match c.reader.subscribeTopics s.trace c.topics with
      | some err =>
        (.ok (.returned (Errors.wrap (some err) "subscribe to topics failed")),
          { s with trace := s.trace ++ [.subscribeTopics c.topics (some err)] })
      | none =>
        deferring (deferring (loop inputs) commitOffsets) closeReader c
          ⟨Offsets.empty, s.trace ++ [.subscribeTopics c.topics none]⟩ := by
  simp only [listen, bind_apply, consumer_apply, readerSubscribeTopics, readerCall_apply]
  cases c.reader.subscribeTopics s.trace c.topics <;> rfl

end Handlers

end KafkaConsumer
