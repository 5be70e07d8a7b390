import KafkaConsumer.Kafka

/-!
# The offset tracker

Modelled from the spec (§3, §4.1): the type `offset`, `newOffset` and the methods
`Add`, `Get`, `Remove`, `Clear` and `Counter` that `group.go` calls are not in the
source.  `Add` sets the key's descriptor to the argument verbatim and counts one more;
`Remove` drops the entry of the argument's key, whatever its offset.  A Go map has no
order, so any order of `Get`'s list is faithful; here entries keep the order their keys
entered, and `Offsets` carries as a field that no key has two entries.
-/

namespace KafkaConsumer

/-- An entry of the tracker: the last descriptor added for its key and how many
descriptors were added since the key entered. -/
structure Entry where
  tp : TopicPartition
  count : Nat
  deriving DecidableEq, Repr, Nonempty

/-- Modelled from the spec: the offset tracker, at most one entry per key. -/
structure Offsets where
  entries : List Entry
  nodup : (entries.map fun e => e.tp.key).Nodup

namespace Offsets

def empty : Offsets := ⟨[], List.nodup_nil⟩

def find (o : Offsets) (k : PartitionKey) : Option Entry :=
  o.entries.find? fun e => e.tp.key = k

/-- The count of a key, `0` when it has no entry (a Go map's zero value). -/
def count (o : Offsets) (k : PartitionKey) : Nat :=
  ((o.find k).map Entry.count).getD 0

theorem keys_bump (l : List Entry) (tp : TopicPartition) :
    (l.map fun e => if e.tp.key = tp.key then Entry.mk tp (e.count + 1) else e).map
      (fun e => e.tp.key) = l.map fun e => e.tp.key := by
  induction l with
  | nil => rfl
  | cons e l ih => by_cases h : e.tp.key = tp.key <;> simp [h, ih]

def add (o : Offsets) (tp : TopicPartition) : Offsets :=
  if h : tp.key ∈ o.entries.map fun e => e.tp.key then
    ⟨o.entries.map fun e => if e.tp.key = tp.key then ⟨tp, e.count + 1⟩ else e,
      by rw [keys_bump]; exact o.nodup⟩
  else
    ⟨o.entries ++ [⟨tp, 1⟩], by
      rw [List.map_append, List.nodup_append]
      exact ⟨o.nodup, List.nodup_singleton _, by simpa using h⟩⟩

/-- `Remove`: the entry of the descriptor's key goes, whatever its offset. -/
def remove (o : Offsets) (tp : TopicPartition) : Offsets :=
  ⟨o.entries.filter fun e => e.tp.key ≠ tp.key,
    o.nodup.sublist ((List.filter_sublist _).map _)⟩

def clear (_ : Offsets) : Offsets := empty

/-- `Get`: the descriptors, to hand to `CommitOffsets`, and the count of each key. -/
def get (o : Offsets) : List TopicPartition × (PartitionKey → Nat) :=
  (o.entries.map Entry.tp, o.count)

/-- `Counter`: the sum of the counts. -/
def counter (o : Offsets) : Nat :=
  (o.entries.map Entry.count).sum

/-! ### What each operation does to an entry -/

@[simp] theorem find_empty (k : PartitionKey) : empty.find k = none := rfl

@[simp] theorem find_clear (o : Offsets) (k : PartitionKey) : o.clear.find k = none := rfl

theorem find_key {o : Offsets} {k : PartitionKey} {e : Entry} (h : o.find k = some e) :
    e.tp.key = k := by
  simpa using List.find?_some h

theorem find?_bump (l : List Entry) (tp : TopicPartition) (k : PartitionKey) :
    (l.map fun e => if e.tp.key = tp.key then Entry.mk tp (e.count + 1) else e).find?
        (fun e => e.tp.key = k) =
      if tp.key = k then (l.find? fun e => e.tp.key = k).map fun e => ⟨tp, e.count + 1⟩
      else l.find? fun e => e.tp.key = k := by
  induction l with
  | nil => split <;> rfl
  | cons e l ih =>
    rw [List.map_cons, List.find?_cons, List.find?_cons, ih]
    by_cases he : e.tp.key = tp.key
    · by_cases hk : tp.key = k <;> simp [he, hk]
    · by_cases hk : e.tp.key = k
      · have : tp.key ≠ k := fun h => he (hk.trans h.symm)
        simp [he, hk, this, Ne.symm this]
      · simp [he, hk]

theorem find_add (o : Offsets) (tp : TopicPartition) (k : PartitionKey) :
    (o.add tp).find k = if tp.key = k then some ⟨tp, o.count k + 1⟩ else o.find k := by
  unfold count
  split
  · rename_i hk
    subst hk
    unfold add find
    split
    · rename_i hmem
      obtain ⟨e, he, hek⟩ := List.mem_map.mp hmem
      rw [find?_bump, if_pos rfl]
      cases hf : o.entries.find? fun e' => e'.tp.key = tp.key with
      | none => exact absurd he (by simpa [hek] using List.find?_eq_none.mp hf e)
      | some e' => rfl
    · rename_i hmem
      have : (o.entries.find? fun e => e.tp.key = tp.key) = none :=
        List.find?_eq_none.mpr fun e he hek => hmem (List.mem_map.mpr ⟨e, he, by simpa using hek⟩)
      simp [this]
  · rename_i hk
    unfold add find
    split
    · rw [find?_bump, if_neg hk]
    · rw [List.find?_append]
      cases o.entries.find? fun e => e.tp.key = k <;> simp [hk]

theorem find_remove (o : Offsets) (tp : TopicPartition) (k : PartitionKey) :
    (o.remove tp).find k = if tp.key = k then none else o.find k := by
  unfold remove find
  rw [List.find?_filter]
  split
  · rename_i hk
    exact List.find?_eq_none.mpr fun e _ => by simp only [hk]; simp
  · rename_i hk
    congr 1
    funext e
    by_cases he : e.tp.key = k
    · simp [he, Ne.symm hk]
    · simp [he]

theorem find_of_mem {o : Offsets} {e : Entry} (he : e ∈ o.entries) : o.find e.tp.key = some e := by
  obtain ⟨l, hl⟩ := o
  unfold find
  induction l with
  | nil => simp at he
  | cons a l ih =>
    rw [List.map_cons, List.nodup_cons] at hl
    rcases List.mem_cons.mp he with rfl | he
    · simp
    · have : a.tp.key ≠ e.tp.key := fun h => hl.1 (h ▸ List.mem_map_of_mem _ he)
      rw [List.find?_cons, decide_eq_false this]
      exact ih hl.2 he

theorem find_of_mem_get {o : Offsets} {d : TopicPartition} (hd : d ∈ o.get.1) :
    ∃ n, o.find d.key = some ⟨d, n⟩ := by
  obtain ⟨e, he, rfl⟩ := List.mem_map.mp hd
  exact ⟨e.count, find_of_mem he⟩

theorem find_eq_none {o : Offsets} {k : PartitionKey} (h : k ∉ o.get.1.map TopicPartition.key) :
    o.find k = none := by
  cases hf : o.find k with
  | none => rfl
  | some e =>
    have he : e ∈ o.entries := List.mem_of_find?_eq_some hf
    exact absurd (find_key hf ▸ List.mem_map_of_mem _ (List.mem_map_of_mem Entry.tp he)) h

theorem entries_eq_nil {o : Offsets} (h : ∀ k, o.find k = none) : o.entries = [] := by
  cases he : o.entries with
  | nil => rfl
  | cons e _ =>
    have := find_of_mem (o := o) (he ▸ List.mem_cons_self e _)
    simp [h] at this

theorem clear_of_entries_nil {o : Offsets} (h : o.entries = []) : o.clear = o := by
  obtain ⟨l, hl⟩ := o
  cases h
  rfl

theorem count_of_entries_nil {o : Offsets} (h : o.entries = []) (k : PartitionKey) :
    o.count k = 0 := by
  simp [count, find, h]

theorem find?_get (o : Offsets) (k : PartitionKey) :
    o.get.1.find? (fun d => d.key = k) = (o.find k).map Entry.tp := by
  simp only [get, find, List.find?_map]
  rfl

theorem get_nodup (o : Offsets) : (o.get.1.map TopicPartition.key).Nodup := by
  simpa [get] using o.nodup

@[simp] theorem get_count (o : Offsets) : o.get.2 = o.count := rfl

@[simp] theorem count_add (o : Offsets) (tp : TopicPartition) (k : PartitionKey) :
    (o.add tp).count k = if tp.key = k then o.count k + 1 else o.count k := by
  unfold count
  rw [find_add]
  split <;> rfl

@[simp] theorem count_remove (o : Offsets) (tp : TopicPartition) (k : PartitionKey) :
    (o.remove tp).count k = if tp.key = k then 0 else o.count k := by
  unfold count
  rw [find_remove]
  split <;> rfl

@[simp] theorem count_clear (o : Offsets) (k : PartitionKey) : o.clear.count k = 0 := rfl

end Offsets

end KafkaConsumer
