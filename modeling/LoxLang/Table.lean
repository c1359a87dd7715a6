/-!
# Tables

A table holds one value for each of its keys, in the order in which the keys came in. Writing a
present key changes its value and moves nothing; a new key goes to the end. That no key occurs
twice is part of the type.
-/

namespace LoxLang

/-- Values by key, in order of entry. -/
structure Table (κ α : Type) where
  entries : List (κ × α)
  nodup : (entries.map Prod.fst).Nodup
deriving Repr

namespace Table

variable {κ α : Type} [DecidableEq κ]

/-- The table without entries. -/
def empty : Table κ α := ⟨[], .nil⟩

instance : Inhabited (Table κ α) := ⟨empty⟩

/-- The keys in order. -/
def keys (t : Table κ α) : List κ := t.entries.map Prod.fst

/-- How many entries there are. -/
def size (t : Table κ α) : Nat := t.entries.length

/-- The value of a key. -/
def get? (t : Table κ α) (k : κ) : Option α := (t.entries.find? fun e => e.1 = k).map Prod.snd

/-- The key has a value. -/
def contains (t : Table κ α) (k : κ) : Bool := t.entries.any fun e => e.1 = k

theorem contains_iff_mem_keys (t : Table κ α) (k : κ) : t.contains k ↔ k ∈ t.keys := by
  simp [contains, keys]

/-- An entry with its value replaced if it is that of `k`. -/
def setEntry (k : κ) (v : α) (e : κ × α) : κ × α := if e.1 = k then (k, v) else e

theorem map_fst_setEntry (k : κ) (v : α) (es : List (κ × α)) :
    (es.map (setEntry k v)).map Prod.fst = es.map Prod.fst := by
  rw [List.map_map]
  refine List.map_congr_left fun e _ => ?_
  by_cases h : e.1 = k <;> simp [setEntry, h]

/-- Write the value of a key. -/
def insert (t : Table κ α) (k : κ) (v : α) : Table κ α :=
  if h : t.contains k then ⟨t.entries.map (setEntry k v), by rw [map_fst_setEntry]; exact t.nodup⟩
  else ⟨t.entries ++ [(k, v)], by
    have hk : k ∉ t.keys := fun hm => h ((contains_iff_mem_keys t k).2 hm)
    rw [List.map_append, List.nodup_append]
    refine ⟨t.nodup, by simp, fun a ha b hb => ?_⟩
    rintro rfl
    simp at hb
    exact hk (hb ▸ ha)⟩

/-- Remove a key. -/
def erase (t : Table κ α) (k : κ) : Table κ α :=
  ⟨t.entries.filter fun e => !decide (e.1 = k), t.nodup.sublist (List.filter_sublist.map _)⟩

/-- The table with the given entries; of those with the same key the first gives the place and the
last the value. -/
def ofList (es : List (κ × α)) : Table κ α := es.foldl (fun t e => t.insert e.1 e.2) empty

/-! ### What is in a table after an operation -/

@[simp]
theorem get?_empty (k : κ) : (empty : Table κ α).get? k = none := rfl

theorem get?_eq_none_iff (t : Table κ α) (k : κ) : t.get? k = none ↔ k ∉ t.keys := by
  simp only [get?, keys, Option.map_eq_none_iff, List.find?_eq_none, decide_eq_true_eq,
    List.mem_map, not_exists, not_and]

/-- A key is there if it has a value. -/
theorem contains_eq_isSome (t : Table κ α) (k : κ) : t.contains k = (t.get? k).isSome := by
  rw [Bool.eq_iff_iff, contains_iff_mem_keys, Option.isSome_iff_ne_none, ne_eq, get?_eq_none_iff,
    Decidable.not_not]

theorem find?_map_setEntry_self (k : κ) (v : α) (es : List (κ × α)) (h : k ∈ es.map Prod.fst) :
    (es.map (setEntry k v)).find? (fun e => e.1 = k) = some (k, v) := by
  induction es with
  | nil => simp at h
  | cons e es ih =>
    by_cases he : e.1 = k
    · simp [setEntry, he]
    · have hm : k ∈ es.map Prod.fst := by
        rcases List.mem_cons.1 h with h | h
        · exact absurd h.symm he
        · exact h
      simpa [setEntry, he] using ih hm

theorem find?_map_setEntry_of_ne (k j : κ) (v : α) (es : List (κ × α)) (h : j ≠ k) :
    (es.map (setEntry k v)).find? (fun e => e.1 = j) = es.find? fun e => e.1 = j := by
  induction es with
  | nil => rfl
  | cons e es ih =>
    by_cases he : e.1 = k
    · simpa [setEntry, he, h.symm] using ih
    · by_cases hj : e.1 = j
      · simp [setEntry, hj, h]
      · simpa [setEntry, he, hj] using ih

/-- A key has the value that was last written. -/
@[simp]
theorem get?_insert_self (t : Table κ α) (k : κ) (v : α) : (t.insert k v).get? k = some v := by
  by_cases h : t.contains k
  · have hm : k ∈ t.entries.map Prod.fst := (contains_iff_mem_keys t k).1 h
    simp [get?, insert, h, find?_map_setEntry_self k v t.entries hm]
  · have hk : k ∉ t.keys := fun hm => h ((contains_iff_mem_keys t k).2 hm)
    have hn : t.entries.find? (fun e => e.1 = k) = none :=
      Option.map_eq_none_iff.1 ((get?_eq_none_iff t k).2 hk)
    simp [get?, insert, h, List.find?_append, hn]

/-- Writing one key leaves the values of the others. -/
theorem get?_insert_of_ne (t : Table κ α) {k j : κ} (v : α) (h : j ≠ k) :
    (t.insert k v).get? j = t.get? j := by
  by_cases hk : t.contains k
  · simp [get?, insert, hk, find?_map_setEntry_of_ne k j v t.entries h]
  · simp [get?, insert, hk, List.find?_append, h.symm]

/-- Writing a key moves nothing, and a new key goes to the end. -/
theorem keys_insert (t : Table κ α) (k : κ) (v : α) :
    (t.insert k v).keys = if t.contains k then t.keys else t.keys ++ [k] := by
  by_cases h : t.contains k
  · simp only [insert, h, keys, dite_true, if_true, map_fst_setEntry]
  · simp [insert, h, keys]

theorem get?_insert (t : Table κ α) (k j : κ) (v : α) :
    (t.insert k v).get? j = if j = k then some v else t.get? j := by
  split
  · rename_i h
    rw [h, get?_insert_self]
  · exact get?_insert_of_ne t v ‹_›

theorem map_setEntry_of_not_mem {k : κ} {es : List (κ × α)} (v : α) (h : k ∉ es.map Prod.fst) :
    es.map (setEntry k v) = es := by
  refine (List.map_congr_left fun e he => ?_).trans (List.map_id es)
  have hne : e.1 ≠ k := fun heq => h (heq ▸ List.mem_map_of_mem he)
  simp [setEntry, hne]

theorem entries_insert (t : Table κ α) (k : κ) (v : α) :
    (t.insert k v).entries =
      if t.contains k then t.entries.map (setEntry k v) else t.entries ++ [(k, v)] := by
  by_cases h : t.contains k <;> simp [insert, h]

/-- What holds of the entries and of a new one holds of them together. -/
theorem forall_entries_insert {P : κ × α → Prop} {t : Table κ α} {k : κ} {v : α}
    (ht : ∀ e ∈ t.entries, P e) (hv : P (k, v)) : ∀ e ∈ (t.insert k v).entries, P e := by
  intro e he
  rw [entries_insert] at he
  split at he
  · obtain ⟨old, hold, rfl⟩ := List.mem_map.1 he
    unfold setEntry
    split
    · exact hv
    · exact ht old hold
  · rcases List.mem_append.1 he with he | he
    · exact ht e he
    · rwa [List.mem_singleton.1 he]

theorem contains_insert_self (t : Table κ α) (k : κ) (v : α) : (t.insert k v).contains k := by
  rw [contains_eq_isSome, get?_insert_self, Option.isSome_some]

/-- Of two values that are written one after the other for a key, the second counts. -/
@[simp]
theorem insert_insert (t : Table κ α) (k : κ) (v w : α) :
    (t.insert k v).insert k w = t.insert k w := by
  rw [mk.injEq, entries_insert, if_pos (contains_insert_self t k v), entries_insert, entries_insert]
  by_cases h : t.contains k
  · rw [if_pos h, if_pos h, List.map_map]
    refine List.map_congr_left fun e _ => ?_
    by_cases he : e.1 = k <;> simp [setEntry, he]
  · have hk : k ∉ t.entries.map Prod.fst := fun hm => h ((contains_iff_mem_keys t k).2 hm)
    rw [if_neg h, if_neg h, List.map_append, map_setEntry_of_not_mem w hk]
    simp [setEntry]

theorem contains_insert (t : Table κ α) (k j : κ) (v : α) :
    (t.insert k v).contains j = (decide (j = k) || t.contains j) := by
  rw [contains_eq_isSome, contains_eq_isSome, get?_insert]
  split <;> simp [*]

@[simp]
theorem contains_empty (k : κ) : (empty : Table κ α).contains k = false := rfl

theorem contains_foldl_insert (es : List (κ × α)) (t : Table κ α) (k : κ) :
    (es.foldl (fun t e => t.insert e.1 e.2) t).contains k =
      (t.contains k || decide (k ∈ es.map Prod.fst)) := by
  induction es generalizing t with
  | nil => simp
  | cons e es ih =>
    rw [List.foldl_cons, ih, contains_insert, List.map_cons]
    by_cases h : k = e.1
    · simp [h]
    · have hmem : k ∈ e.1 :: es.map Prod.fst ↔ k ∈ es.map Prod.fst := by simp [h]
      simp only [h, hmem, decide_false, Bool.false_or]

/-- The keys of a table that is made from entries are theirs. -/
theorem contains_ofList (es : List (κ × α)) (k : κ) :
    (ofList es).contains k = decide (k ∈ es.map Prod.fst) := by
  rw [ofList, contains_foldl_insert, contains_empty, Bool.false_or]

theorem forall_get?_foldl_insert {P : κ → α → Prop} (es : List (κ × α)) (t : Table κ α)
    (ht : ∀ k v, t.get? k = some v → P k v) (hes : ∀ e ∈ es, P e.1 e.2) :
    ∀ k v, (es.foldl (fun t e => t.insert e.1 e.2) t).get? k = some v → P k v := by
  induction es generalizing t with
  | nil => exact ht
  | cons e es ih =>
    rw [List.forall_mem_cons] at hes
    refine ih (t.insert e.1 e.2) (fun k v hv => ?_) hes.2
    rw [get?_insert] at hv
    split at hv
    · cases hv
      rename_i h
      exact h ▸ hes.1
    · exact ht k v hv

/-- What is in a table that is made from entries is one of them. -/
theorem forall_get?_ofList {P : κ → α → Prop} {es : List (κ × α)} (hes : ∀ e ∈ es, P e.1 e.2) :
    ∀ k v, (ofList es).get? k = some v → P k v :=
  forall_get?_foldl_insert es empty (fun k v hv => by simp at hv) hes

/-- A key that has been removed has no value. -/
@[simp]
theorem get?_erase_self (t : Table κ α) (k : κ) : (t.erase k).get? k = none := by
  simp [get?, erase]

/-- Removing one key leaves the values of the others. -/
theorem get?_erase_of_ne (t : Table κ α) {k j : κ} (h : j ≠ k) :
    (t.erase k).get? j = t.get? j := by
  simp only [get?, erase, List.find?_filter]
  congr 2
  funext e
  by_cases he : e.1 = j
  · simp [he, h]
  · simp [he]

end Table

end LoxLang
