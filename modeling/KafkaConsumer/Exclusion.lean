import KafkaConsumer.Lifecycle

/-!
# `c.mu` and the frames of a consumer's calls

`Start` holds `c.mu` from its `Lock` to the `Unlock` of its defer, `Stop` from its `Lock`
to its `Unlock`.  `Frames` says what the frames of one consumer's calls keep over every
interleaving:

* at most one frame holds `c.mu`, on the task that `c.mu` names (`Frames.mutex`);
* a `Stop` call past its cancel has cancelled the context, and a task of `Sleep` comes
  after a `Pause` (`FrameOk`);
* every task id at or past `next` is unused.

Each move of a call on the consumer is checked once (`startMove_ok`, `stopMove_ok`,
`sleepTimerMove_ok`), and `Frames.step` derives that every step keeps `Frames`.
-/

namespace KafkaConsumer

/-! ### Holding `c.mu` -/

def StartPc.locked : StartPc → Bool
  | .lock | .notifyClosed _ => false
  | _ => true

def StopPc.locked : StopPc → Bool
  | .wait | .unlock => true
  | _ => false

def Frame.holds (i : Nat) : Frame → Bool
  | .start j pc => j == i && pc.locked
  | .stop j pc => j == i && pc.locked
  | _ => false

def Frame.consumer : Frame → Option Nat
  | .start i _ | .stop i _ | .sleepTimer i _ _ => some i
  | .worker _ _ _ | .watcher _ | .groupStart _ | .groupStop _ | .ret _ => none

def holdCount (i : Nat) (stack : List Frame) : Nat := stack.countP (Frame.holds i)

def Frame.startPc : Frame → Option StartPc
  | .start _ pc => some pc
  | _ => none

def heldPc (i : Nat) (frames : List Frame) : Option StartPc :=
  (frames.find? (Frame.holds i)).bind Frame.startPc

/-- The pc of the `Start` call that holds `c.mu` of consumer `i`: `none` when `c.mu` is
free or a `Stop` call holds it. -/
def Sys.holderPc (s : Sys) (i : Nat) : Option StartPc :=
  (s.shared i).mu.bind fun t => heldPc i (s.threads t)

theorem Frame.consumer_of_holds {i : Nat} : ∀ {f : Frame}, f.holds i = true → f.consumer = some i
  | .start _ _, h | .stop _ _, h => by simp_all [Frame.holds, Frame.consumer]

theorem Frame.resume_eq_or (r : Option Error) (f : Frame) :
    f.resume r = f ∨ (f.consumer = none ∧ (f.resume r).consumer = none) := by
  unfold Frame.resume; split <;> simp [Frame.consumer]

theorem Frame.holds_eq_false {i : Nat} {f : Frame} (h : f.consumer ≠ some i) : f.holds i = false :=
  Bool.eq_false_iff.mpr fun hf => h (Frame.consumer_of_holds hf)

@[simp] theorem Frame.holds_start_self (i : Nat) (pc : StartPc) : (Frame.start i pc).holds i = pc.locked := by
  simp [Frame.holds]

@[simp] theorem Frame.holds_stop_self (i : Nat) (pc : StopPc) : (Frame.stop i pc).holds i = pc.locked := by
  simp [Frame.holds]

@[simp] theorem Frame.holds_ret (i : Nat) (r : Option Error) : (Frame.ret r).holds i = false := rfl

@[simp] theorem holdCount_nil (i : Nat) : holdCount i [] = 0 := rfl

@[simp] theorem holdCount_cons (i : Nat) (f : Frame) (l : List Frame) :
    holdCount i (f :: l) = holdCount i l + (f.holds i).toNat := by
  simp only [holdCount, List.countP_cons]; cases f.holds i <;> rfl

theorem holdCount_start_self (i : Nat) (pc : StartPc) : holdCount i [.start i pc] = pc.locked.toNat := by
  simp

theorem holdCount_append (i : Nat) (l₁ l₂ : List Frame) :
    holdCount i (l₁ ++ l₂) = holdCount i l₁ + holdCount i l₂ :=
  List.countP_append ..

theorem find?_of_countP_eq_one {α : Type} {p : α → Bool} {a : α} :
    ∀ {l : List α}, l.countP p = 1 → a ∈ l → p a → l.find? p = some a
  | b :: l, hc, ha, hp => by
    by_cases hb : p b
    · have h0 : l.countP p = 0 := by simpa [List.countP_cons, hb] using hc
      rcases List.mem_cons.mp ha with rfl | ha
      · simp [hp]
      · exact absurd h0 (List.countP_pos_iff.mpr ⟨a, ha, hp⟩).ne'
    · have ha' : a ∈ l := (List.mem_cons.mp ha).resolve_left fun e => hb (e ▸ hp)
      rw [List.find?_cons_of_neg _ hb]
      exact find?_of_countP_eq_one (by simpa [List.countP_cons, hb] using hc) ha' hp

theorem find?_eq_head?_filter {α : Type} (p : α → Bool) : ∀ l : List α, l.find? p = (l.filter p).head?
  | [] => rfl
  | a :: l => by
    by_cases h : p a
    · rw [List.find?_cons_of_pos _ h, List.filter_cons_of_pos h]; rfl
    · rw [List.find?_cons_of_neg _ h, List.filter_cons_of_neg h]; exact find?_eq_head?_filter p l

theorem filter_holds_eq_nil {i : Nat} {l : List Frame} (h : holdCount i l = 0) :
    l.filter (Frame.holds i) = [] := by
  rw [← List.length_eq_zero, ← List.countP_eq_length_filter]; exact h

theorem heldPc_eq_none {i : Nat} {l : List Frame} (h : holdCount i l = 0) : heldPc i l = none := by
  rw [heldPc, find?_eq_head?_filter, filter_holds_eq_nil h]; rfl

theorem heldPc_append {i : Nat} (l : List Frame) {rest : List Frame} (h : holdCount i rest = 0) :
    heldPc i (l ++ rest) = heldPc i l := by
  simp only [heldPc, List.find?_append, find?_eq_head?_filter _ rest, filter_holds_eq_nil h, List.head?_nil,
    Option.or_none]

/-! ### The invariant -/

/-- A frame of a call on consumer `i`, whose fields are `c`, past what it waits for: a `Stop`
call past its cancel has cancelled the context, and a task of `Sleep` comes after a `Pause`
that succeeded. -/
@[simp] def FrameOk (i : Nat) (c : Shared) : Frame → Prop
  | .stop j pc => j = i → pc ≠ .cancel → c.cancelled = true
  | .sleepTimer j _ _ => j = i → .pause true ∈ c.calls
  | .start _ _ | .worker _ _ _ | .watcher _ | .groupStart _ | .groupStop _ | .ret _ => True

/-- The consumer's fields only grow: a done context stays done, reader calls are only added. -/
def Grows (c c' : Shared) : Prop := (c.cancelled = true → c'.cancelled = true) ∧ c.calls <+: c'.calls

theorem FrameOk.grow {i : Nat} {c c' : Shared} {f : Frame} (h : FrameOk i c f) (hg : Grows c c') :
    FrameOk i c' f := by
  cases f with
  | stop j pc => exact fun hj hpc => hg.1 (h hj hpc)
  | sleepTimer j ps pc => exact fun hj => hg.2.subset (h hj)
  | _ => trivial

theorem FrameOk.start {i j : Nat} {c : Shared} {pc : StartPc} : FrameOk i c (.start j pc) := trivial

theorem FrameOk.ret {i : Nat} {c : Shared} {r : Option Error} : FrameOk i c (.ret r) := trivial

theorem FrameOk.stop_cancel {i j : Nat} {c : Shared} : FrameOk i c (.stop j .cancel) := fun _ h => absurd rfl h

/-- A frame that holds no `c.mu` and needs nothing of the fields: a `Start` call at its
`Lock`, a `Stop` call at its cancel, the group's frames and returns. -/
def Frame.idle : Frame → Bool
  | .start _ .lock | .stop _ .cancel | .worker _ _ _ | .watcher _ | .groupStart _ | .groupStop _ | .ret _ => true
  | _ => false

theorem Frame.holds_of_idle {i : Nat} {g : Frame} (hg : g.idle = true) : g.holds i = false := by
  rcases g with ⟨_, _ | _⟩ | ⟨_, _ | _⟩ <;> simp_all [Frame.idle, Frame.holds, StartPc.locked, StopPc.locked]

theorem Frame.frameOk_of_idle {i : Nat} {c : Shared} {g : Frame} (hg : g.idle = true) : FrameOk i c g := by
  rcases g with ⟨_, _ | _⟩ | ⟨_, _ | _⟩ <;> simp_all [Frame.idle]

theorem frameOk_of_consumer {i : Nat} {c : Shared} {f : Frame} (h : f.consumer ≠ some i) :
    FrameOk i c f := by
  cases f <;> simp_all [FrameOk, Frame.consumer]

/-- What the frames of the calls on consumer `i` keep (module doc). -/
structure Frames (i : Nat) (s : Sys) : Prop where
  mutex : ∀ t, holdCount i (s.threads t) = if (s.shared i).mu = some t then 1 else 0
  fresh : ∀ t, s.next ≤ t → s.threads t = []
  ok : ∀ t, ∀ f ∈ s.threads t, FrameOk i (s.shared i) f

theorem frames_init (n i : Nat) : Frames i (Sys.init n) :=
  ⟨fun _ => rfl, fun _ _ => rfl, fun _ _ h => nomatch h⟩

theorem holderPc_replace {s s' : Sys} {i t : Nat} (old new : List Frame) {rest : List Frame}
    (ht : s.threads t = old ++ rest) (hth : s'.threads = Function.update s.threads t (new ++ rest))
    (hmu : (s'.shared i).mu = (s.shared i).mu)
    (hh : new.filter (Frame.holds i) = old.filter (Frame.holds i)) : s'.holderPc i = s.holderPc i := by
  simp only [Sys.holderPc, hmu, hth]
  cases (s.shared i).mu with
  | none => rfl
  | some u =>
    show heldPc i (Function.update s.threads t (new ++ rest) u) = heldPc i (s.threads u)
    by_cases e : u = t
    · subst e
      rw [Function.update_same, ht]
      simp only [heldPc, List.find?_append, find?_eq_head?_filter _ new, hh, ← find?_eq_head?_filter]
    · rw [Function.update_noteq e]

namespace Frames

variable {i t : Nat} {s : Sys}

theorem mu_of_holds (h : Frames i s) {f : Frame} (hf : f ∈ s.threads t) (hh : f.holds i = true) :
    (s.shared i).mu = some t := by
  have := h.mutex t
  have hpos : 0 < holdCount i (s.threads t) := List.countP_pos_iff.mpr ⟨f, hf, hh⟩
  split at this
  · assumption
  · omega

theorem holderPc_of_mem (h : Frames i s) {pc : StartPc} (hf : .start i pc ∈ s.threads t)
    (hl : pc.locked = true) : s.holderPc i = some pc := by
  have hh : (Frame.start i pc).holds i = true := by simp [Frame.holds, hl]
  have hmu := h.mu_of_holds hf hh
  have hc : holdCount i (s.threads t) = 1 := by rw [h.mutex t, if_pos hmu]
  simp [Sys.holderPc, hmu, heldPc, find?_of_countP_eq_one hc hf hh, Frame.startPc]

theorem lt_next (h : Frames i s) {f : Frame} {l : List Frame} (ht : s.threads t = f :: l) : t < s.next :=
  Nat.lt_of_not_le fun hn => by simp [h.fresh t hn] at ht

/-- A step of task `t` that replaces the frames `old` on top of its stack by `new`, holding
`c.mu` of consumer `i` as they did and starting no frame that `FrameOk` constrains,
and leaves the consumer's fields alone, keeps `Frames` and the holder. -/
theorem replace (h : Frames i s) {s' : Sys} {f : Frame} (old new : List Frame) {rest : List Frame}
    (ht : s.threads t = f :: old ++ rest)
    (hth : s'.threads = Function.update s.threads t (new ++ rest)) (hsh : s'.shared i = s.shared i)
    (hn : s'.next = s.next) (hh : new.filter (Frame.holds i) = (f :: old).filter (Frame.holds i))
    (hok : ∀ g ∈ new, g ∈ f :: old ∨ FrameOk i (s.shared i) g) :
    Frames i s' ∧ s'.holderPc i = s.holderPc i := by
  have htn := h.lt_next ht
  have hcount : holdCount i new = holdCount i (f :: old) := by
    simp only [holdCount, List.countP_eq_length_filter, hh]
  refine ⟨⟨fun t' => ?_, fun t' ht' => ?_, fun t' g hg => ?_⟩, ?_⟩
  · rw [hth, hsh]
    by_cases e : t' = t
    · subst e; simp only [Function.update_same, holdCount_append, hcount]
      rw [← holdCount_append, ← ht, h.mutex]
    · rw [Function.update_noteq e, h.mutex]
  · rw [hth, Function.update_noteq (by omega)]; exact h.fresh t' (hn ▸ ht')
  · rw [hth] at hg; rw [hsh]
    by_cases e : t' = t
    · subst e
      rw [Function.update_same] at hg
      rcases List.mem_append.mp hg with hg | hg
      · exact (hok g hg).elim (fun hg => h.ok t' g (by rw [ht]; exact List.mem_append_left _ hg)) id
      · exact h.ok t' g (by rw [ht]; exact List.mem_append_right _ hg)
    · rw [Function.update_noteq e] at hg; exact h.ok t' g hg
  · exact holderPc_replace _ _ ht hth (by rw [hsh]) hh

/-- A step of task `t` that replaces its top frame, which does not hold `c.mu` of consumer
`i`, by frames that do not hold it either and that `FrameOk` lets through, and that leaves
the consumers' fields alone, keeps `Frames` and the holder. -/
theorem quiet (h : Frames i s) {s' : Sys} {f : Frame} (new : List Frame) {rest : List Frame}
    (ht : s.threads t = f :: rest)
    (hth : s'.threads = Function.update s.threads t (new ++ rest)) (hsh : s'.shared = s.shared)
    (hn : s'.next = s.next) (hf : f.holds i = false)
    (hnew : ∀ g ∈ new, g.holds i = false ∧ FrameOk i (s.shared i) g) :
    Frames i s' ∧ s'.holderPc i = s.holderPc i :=
  h.replace [] new ht hth (by rw [hsh]) hn
    (by simpa [hf] using fun g hg => (hnew g hg).1) fun g hg => .inr (hnew g hg).2

theorem spawn (h : Frames i s) {g : Frame} (hg : g.holds i = false) (hok : FrameOk i (s.shared i) g) :
    Frames i (s.spawn [g]) ∧ (s.spawn [g]).holderPc i = s.holderPc i := by
  have hfree : (s.shared i).mu ≠ some s.next := fun e => by
    simpa [h.fresh s.next le_rfl, e] using h.mutex s.next
  refine ⟨⟨fun t' => ?_, fun t' ht' => ?_, fun t' f hf => ?_⟩, ?_⟩
  · by_cases e : t' = s.next
    · subst e; simp [hg, hfree]
    · simp only [Sys.spawn_threads, Sys.spawn_shared, Function.update_noteq e, h.mutex]
  · simp only [Sys.spawn_next] at ht'
    simp only [Sys.spawn_threads, Function.update_noteq (show t' ≠ s.next by omega), h.fresh t' (by omega)]
  · by_cases e : t' = s.next
    · subst e; simp only [Sys.spawn_threads, Function.update_same, List.mem_singleton] at hf; subst hf; exact hok
    · simp only [Sys.spawn_threads, Function.update_noteq e] at hf; exact h.ok t' f hf
  · simp only [Sys.holderPc, Sys.spawn_shared, Sys.spawn_threads]
    cases hmu : (s.shared i).mu with
    | none => rfl
    | some u => simp only [Option.some_bind, Function.update_noteq (show u ≠ s.next by rintro rfl; exact hfree hmu)]

end Frames

/-! ### Moves -/

/-- What a move `m` of a call on consumer `i` by task `t`, from its frame `f` and the
consumer's fields `c`, does to `c.mu` and to the frames. -/
structure MoveOk (i t : Nat) (c : Shared) (f : Frame) (m : Move) : Prop where
  grows : Grows c m.shared
  hold : ∀ k, holdCount i [f] + k = (if c.mu = some t then 1 else 0) →
    holdCount i m.top + k = (if m.shared.mu = some t then 1 else 0) ∧
      ∀ t', t' ≠ t → (m.shared.mu = some t' ↔ c.mu = some t')
  ok : FrameOk i c f → ∀ g ∈ m.top, FrameOk i m.shared g
  task : ∀ g, m.task = some g → g.holds i = false ∧ FrameOk i m.shared g

theorem MoveOk.same {i t : Nat} {c : Shared} {f : Frame} {m : Move} (hg : Grows c m.shared)
    (hmu : m.shared.mu = c.mu) (hh : holdCount i m.top = holdCount i [f])
    (hok : FrameOk i c f → ∀ g ∈ m.top, FrameOk i m.shared g)
    (htask : ∀ g, m.task = some g → g.holds i = false ∧ FrameOk i m.shared g) : MoveOk i t c f m :=
  ⟨hg, fun k hk => ⟨by rw [hh, hmu, hk], fun _ _ => by rw [hmu]⟩, hok, htask⟩

theorem MoveOk.acquire {i t : Nat} {c : Shared} {f : Frame} {m : Move} (hg : Grows c m.shared)
    (hfree : c.mu = none) (hmu : m.shared.mu = some t) (hf : f.holds i = false)
    (hh : holdCount i m.top = 1) (hok : FrameOk i c f → ∀ g ∈ m.top, FrameOk i m.shared g)
    (htask : m.task = none) : MoveOk i t c f m := by
  refine ⟨hg, fun k hk => ⟨?_, fun t' e => ?_⟩, hok, fun _ e => nomatch htask ▸ e⟩
  · have hk0 : k = 0 := by simpa [hf, hfree] using hk
    rw [hh, hmu, if_pos rfl, hk0]
  · rw [hmu, hfree]; exact ⟨fun e' => absurd (Option.some.inj e').symm e, nofun⟩

theorem MoveOk.release {i t : Nat} {c : Shared} {f : Frame} {m : Move} (hg : Grows c m.shared)
    (hmu : m.shared.mu = none) (hf : f.holds i = true) (hh : holdCount i m.top = 0)
    (hok : ∀ g ∈ m.top, FrameOk i m.shared g) (htask : m.task = none) : MoveOk i t c f m := by
  refine ⟨hg, fun k hk => ?_, fun _ => hok, fun _ e => by simp [htask] at e⟩
  have hc : c.mu = some t ∧ k = 0 := by
    simp only [holdCount_cons, holdCount_nil, hf, Bool.toNat_true] at hk
    split at hk
    · exact ⟨‹_›, by omega⟩
    · omega
  exact ⟨by simp [hh, hmu, hc.2], fun _ e => by simp [hmu, hc.1, e.symm]⟩

section Moves

variable {c : Shared} {t i j : Nat} {m : Move}

theorem startMove_ok {pc : StartPc} {env : Env} (h : startMove c t i pc env = some m) :
    MoveOk i t c (.start i pc) m := by
  cases pc <;> simp only [startMove, Shared.sleep] at h
  all_goals (repeat' split at h) <;> (try simp only [Option.some.injEq, reduceCtorEq] at h) <;> (try subst h)
  case lock.isTrue hmu =>
    exact MoveOk.acquire ⟨id, List.prefix_refl _⟩ hmu rfl (Frame.holds_start_self i _)
      (holdCount_start_self i _) (fun _ => List.forall_mem_singleton.mpr FrameOk.start) rfl
  case unlock =>
    exact MoveOk.release ⟨fun _ => rfl, List.prefix_refl _⟩ rfl (Frame.holds_start_self i _)
      (holdCount_start_self i _) (List.forall_mem_singleton.mpr FrameOk.start) rfl
  all_goals
    refine MoveOk.same ?_ rfl ?_ (fun _ => ?_) fun _ e => ?_
    · first | exact ⟨id, List.prefix_refl _⟩ | exact ⟨id, List.prefix_append _ _⟩
    · simp only [holdCount_cons, holdCount_nil, Frame.holds_start_self, Frame.holds_stop_self, Frame.holds_ret]
        <;> rfl
    · simp only [List.forall_mem_cons, List.not_mem_nil, false_implies, implies_true, FrameOk.start, FrameOk.ret,
        FrameOk.stop_cancel, and_self]
    · cases e
      all_goals exact ⟨rfl, fun _ => List.mem_append_right _ (by simp [*])⟩

theorem stopMove_ok {pc : StopPc} (h : stopMove c t i pc = some m) : MoveOk i t c (.stop i pc) m := by
  cases pc <;> simp only [stopMove] at h <;> (try split at h) <;> cases h
  case cancel =>
    exact MoveOk.same ⟨fun _ => rfl, List.prefix_refl _⟩ rfl rfl
      (fun _ => List.forall_mem_singleton.mpr fun _ _ => rfl) fun _ e => nomatch e
  case lock.isTrue hmu =>
    exact MoveOk.acquire ⟨id, List.prefix_refl _⟩ hmu rfl (Frame.holds_stop_self i _)
      (by simp only [holdCount_cons, holdCount_nil, Frame.holds_stop_self]; rfl)
      (fun hf => List.forall_mem_singleton.mpr fun hi _ => hf hi (by decide)) rfl
  case wait.isTrue =>
    exact MoveOk.same ⟨id, List.prefix_refl _⟩ rfl rfl
      (fun hf => List.forall_mem_singleton.mpr fun hi _ => hf hi (by decide)) fun _ e => nomatch e
  case unlock =>
    exact MoveOk.release ⟨id, List.prefix_refl _⟩ rfl (Frame.holds_stop_self i _) rfl
      (List.forall_mem_singleton.mpr FrameOk.ret) rfl

theorem sleepTimerMove_ok {ps : List TopicPartition} {pc : TimerPc} (h : sleepTimerMove c i ps pc = some m) :
    MoveOk i t c (.sleepTimer i ps pc) m := by
  rcases pc with _ | _ | _ | _ | k <;> cases h
  case check =>
    exact MoveOk.same ⟨id, List.prefix_refl _⟩ rfl (by split <;> rfl)
      (fun hf => List.forall_mem_singleton.mpr (by split; exacts [trivial, hf])) fun _ e => nomatch e
  all_goals
    refine MoveOk.same (by first | exact ⟨id, List.prefix_refl _⟩ | exact ⟨id, List.prefix_append _ _⟩) rfl rfl
      (fun hf => List.forall_mem_singleton.mpr ?_) fun _ e => nomatch e
    first | exact hf | exact trivial | exact fun hi => List.mem_append_left _ (hf hi)

/-- The frames a move of a call on consumer `j` leaves are its own, or returns. -/
def Move.Of (j : Nat) (m : Move) : Prop :=
  (∀ g ∈ m.top, g.consumer = none ∨ g.consumer = some j) ∧ ∀ g, m.task = some g → g.consumer = some j

theorem startMove_of {pc : StartPc} {env : Env} (h : startMove c t j pc env = some m) : m.Of j := by
  cases pc <;> simp only [startMove, Shared.sleep] at h
  all_goals (repeat' split at h) <;> (try simp only [Option.some.injEq, reduceCtorEq] at h) <;> (try subst h)
  all_goals simp only [Move.Of, List.forall_mem_cons, List.not_mem_nil, false_implies, implies_true,
    Frame.consumer, or_true, true_or, and_self, reduceCtorEq, Option.some.injEq, forall_eq']

theorem stopMove_of {pc : StopPc} (h : stopMove c t j pc = some m) : m.Of j := by
  cases pc <;> simp only [stopMove] at h <;> (try split at h) <;> cases h <;>
    exact ⟨List.forall_mem_singleton.mpr (by first | exact .inl rfl | exact .inr rfl), fun _ e => nomatch e⟩

theorem sleepTimerMove_of {ps : List TopicPartition} {pc : TimerPc} (h : sleepTimerMove c j ps pc = some m) :
    m.Of j := by
  rcases pc with _ | _ | _ | _ | k <;> cases h <;> (try split) <;>
    exact ⟨List.forall_mem_singleton.mpr (by first | exact .inl rfl | exact .inr rfl), fun _ e => nomatch e⟩

end Moves

namespace Frames

variable {i t : Nat} {s : Sys} {f : Frame} {rest : List Frame} {m : Move}

theorem setThread_move (h : Frames i s) (ht : s.threads t = f :: rest) (hm : MoveOk i t (s.shared i) f m) :
    Frames i ((s.setShared i m.shared).setThread t (m.top ++ rest)) := by
  have htn := h.lt_next ht
  refine ⟨fun t' => ?_, fun t' ht' => ?_, fun t' g hg => ?_⟩
  · simp only [Sys.setThread_threads, Sys.setThread_shared, Sys.setShared_shared, Sys.setShared_threads,
      Function.update_same]
    by_cases e : t' = t
    · subst e
      have := h.mutex t'
      rw [ht, holdCount_cons] at this
      rw [Function.update_same, holdCount_append]
      exact (hm.hold _ (by simpa [Nat.add_comm] using this)).1
    · have hmu := (hm.hold _ (by simpa [ht, Nat.add_comm] using h.mutex t)).2 t' e
      rw [Function.update_noteq e, h.mutex t']
      by_cases e' : m.shared.mu = some t'
      · rw [if_pos e', if_pos (hmu.mp e')]
      · rw [if_neg e', if_neg (mt hmu.mpr e')]
  · simp only [Sys.setThread_threads, Sys.setThread_next, Sys.setShared_next, Sys.setShared_threads] at ht' ⊢
    rw [Function.update_noteq (by omega)]; exact h.fresh t' ht'
  · simp only [Sys.setThread_threads, Sys.setThread_shared, Sys.setShared_shared, Sys.setShared_threads,
      Function.update_same] at hg ⊢
    by_cases e : t' = t
    · subst e
      rw [Function.update_same] at hg
      rcases List.mem_append.mp hg with hg | hg
      · exact hm.ok (h.ok t' f (by simp [ht])) g hg
      · exact (h.ok t' g (by simp [ht, hg])).grow hm.grows
    · rw [Function.update_noteq e] at hg; exact (h.ok t' g hg).grow hm.grows

theorem move (h : Frames i s) (ht : s.threads t = f :: rest) (hm : MoveOk i t (s.shared i) f m) :
    Frames i (s.apply t i rest m) := by
  have h₁ := h.setThread_move ht hm
  unfold Sys.apply
  cases hmt : m.task with
  | none => exact h₁
  | some g =>
    obtain ⟨hg, hok⟩ := hm.task g hmt
    exact (h₁.spawn hg (by simpa using hok)).1

theorem holderPc_apply (h : Frames i s) (ht : s.threads t = f :: rest) (hm : MoveOk i t (s.shared i) f m) :
    (s.apply t i rest m).holderPc i = ((s.setShared i m.shared).setThread t (m.top ++ rest)).holderPc i := by
  unfold Sys.apply
  cases hmt : m.task with
  | none => rfl
  | some g => exact ((h.setThread_move ht hm).spawn (hm.task g hmt).1 (by simpa using (hm.task g hmt).2)).2

/-- After a move of consumer `i` on the task that holds `c.mu`, or with `c.mu` free, the
holder is the move's own. -/
theorem holderPc_apply_top (h : Frames i s) (ht : s.threads t = f :: rest) (hm : MoveOk i t (s.shared i) f m)
    (hrest : holdCount i rest = 0) (hmu : (s.shared i).mu = none ∨ (s.shared i).mu = some t) :
    (s.apply t i rest m).holderPc i = heldPc i m.top := by
  rw [h.holderPc_apply ht hm]
  have hk := h.mutex t
  rw [ht, holdCount_cons, hrest] at hk
  obtain ⟨hc, hother⟩ := hm.hold 0 (by simpa using hk)
  simp only [Sys.holderPc, Sys.setThread_shared, Sys.setShared_shared, Function.update_same,
    Sys.setThread_threads, Sys.setShared_threads]
  rcases hm' : m.shared.mu with _ | u
  · rw [hm'] at hc; exact (heldPc_eq_none (by simpa using hc)).symm
  · by_cases e : u = t
    · subst e; simp [heldPc_append _ hrest]
    · have := (hother u e).mp hm'
      rcases hmu with h0 | h0 <;> rw [h0] at this
      · cases this
      · exact absurd (Option.some.inj this).symm e

theorem holderPc_apply_quiet (h : Frames i s) (ht : s.threads t = f :: rest) (hm : MoveOk i t (s.shared i) f m)
    (hf : f.holds i = false) (htop : holdCount i m.top = 0) (hmu : m.shared.mu = (s.shared i).mu) :
    (s.apply t i rest m).holderPc i = s.holderPc i := by
  rw [h.holderPc_apply ht hm]
  exact holderPc_replace [f] m.top ht (by simp) (by simp [hmu]) (by simp [filter_holds_eq_nil htop, hf])

theorem apply_other {j : Nat} (h : Frames i s) (ht : s.threads t = f :: rest) (hj : j ≠ i)
    (hf : f.consumer = some j) (hm : m.Of j) :
    Frames i (s.apply t j rest m) ∧ (s.apply t j rest m).holderPc i = s.holderPc i := by
  have hne : ∀ g : Frame, g.consumer = none ∨ g.consumer = some j → g.consumer ≠ some i := by
    rintro g (e | e) <;> simp [e, hj]
  have htop : m.top.filter (Frame.holds i) = [] :=
    List.filter_eq_nil_iff.mpr fun g hg => by simp [Frame.holds_eq_false (hne g (hm.1 g hg))]
  obtain ⟨h₁, hh₁⟩ := h.replace [] m.top ht
    (show ((s.setShared j m.shared).setThread t (m.top ++ rest)).threads = _ by simp) (by simp [Function.update_noteq hj.symm]) rfl
    (by simp [htop, Frame.holds_eq_false (hne f (.inr hf))])
    (fun g hg => .inr (frameOk_of_consumer (hne g (hm.1 g hg))))
  unfold Sys.apply
  cases hmt : m.task with
  | none => exact ⟨h₁, hh₁⟩
  | some g =>
    have hg := hne g (.inr (hm.2 g hmt))
    obtain ⟨h₂, hh₂⟩ := h₁.spawn (Frame.holds_eq_false hg) (frameOk_of_consumer hg)
    exact ⟨h₂, hh₂.trans hh₁⟩

end Frames

end KafkaConsumer
