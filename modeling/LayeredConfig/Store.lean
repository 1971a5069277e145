/-!
# Stores

A store maps keys to values and remembers the order in which the keys came in. Inserting a value under a
key that is there replaces the value in its place; a new key goes to the end. What a store holds is told
by `get?`, whose value after each operation is given by one lemma.
-/

namespace LayeredConfig

/-- A finite map that keeps its keys in the order of insertion. -/
structure Store (κ ν : Type) where
  entries : List (κ × ν)
  nodup_keys : (entries.map Prod.fst).Nodup

namespace Store

variable {κ ν : Type}

def empty : Store κ ν := ⟨[], by simp⟩

def keys (s : Store κ ν) : List κ := s.entries.map Prod.fst

variable [DecidableEq κ]

def get? (s : Store κ ν) (k : κ) : Option ν := s.entries.lookup k

def contains (s : Store κ ν) (k : κ) : Bool := (s.get? k).isSome

/-- The entries with the value under `k` replaced, or with `k` added at the end. -/
def put (k : κ) (v : ν) : List (κ × ν) → List (κ × ν)
  | [] => [(k, v)]
  | e :: es => if e.1 = k then (k, v) :: es else e :: put k v es

theorem map_fst_put (k : κ) (v : ν) (es : List (κ × ν)) :
    (put k v es).map Prod.fst =
      if k ∈ es.map Prod.fst then es.map Prod.fst else es.map Prod.fst ++ [k] := by
  induction es with
  | nil => simp [put]
  | cons e es ih =>
    by_cases h : e.1 = k
    · simp [put, h]
    · simp only [put, h, if_false, List.map_cons, List.mem_cons, ih, Ne.symm h, false_or]
      split <;> simp

def insert (s : Store κ ν) (k : κ) (v : ν) : Store κ ν where
  entries := put k v s.entries
  nodup_keys := by
    rw [map_fst_put]
    split
    · exact s.nodup_keys
    · next h =>
      rw [List.nodup_append]
      refine ⟨s.nodup_keys, by simp, ?_⟩
      intro a ha b hb e
      rw [List.mem_singleton] at hb
      exact h (hb ▸ e ▸ ha)

def erase (s : Store κ ν) (k : κ) : Store κ ν where
  entries := s.entries.filter fun e => e.1 ≠ k
  nodup_keys := s.nodup_keys.sublist (List.filter_sublist.map Prod.fst)

def eraseAll (s : Store κ ν) (ks : List κ) : Store κ ν := ks.foldl erase s

/-- The store that results from inserting some entries, one after the other. -/
def insertAll (s : Store κ ν) (es : List (κ × ν)) : Store κ ν := es.foldl (fun s e => s.insert e.1 e.2) s

/-! ## What a store holds -/

@[simp] theorem get?_empty (k : κ) : (empty : Store κ ν).get? k = none := rfl

theorem lookup_cons_eq (k a : κ) (v : ν) (es : List (κ × ν)) :
    ((a, v) :: es).lookup k = if k = a then some v else es.lookup k := by
  rw [List.lookup_cons]
  by_cases h : k = a
  · simp [h]
  · simp [h, beq_false_of_ne h]

theorem lookup_put (k : κ) (v : ν) (es : List (κ × ν)) (k' : κ) :
    (put k v es).lookup k' = if k' = k then some v else es.lookup k' := by
  induction es with
  | nil => simp only [put, lookup_cons_eq]
  | cons e es ih =>
    obtain ⟨a, w⟩ := e
    by_cases h : a = k
    · subst h
      simp only [put, if_true, lookup_cons_eq]
      split <;> rfl
    · simp only [put, h, if_false, lookup_cons_eq, ih]
      by_cases h' : k' = a
      · simp [h', h]
      · simp [h']

@[simp] theorem get?_insert (s : Store κ ν) (k k' : κ) (v : ν) :
    (s.insert k v).get? k' = if k' = k then some v else s.get? k' :=
  lookup_put k v s.entries k'

theorem get?_insert_self (s : Store κ ν) (k : κ) (v : ν) : (s.insert k v).get? k = some v := by
  rw [get?_insert, if_pos rfl]

/-- To insert what is there changes nothing. -/
theorem insert_of_get? {s : Store κ ν} {k : κ} {v : ν} (h : s.get? k = some v) : s.insert k v = s := by
  have hput : ∀ es : List (κ × ν), es.lookup k = some v → put k v es = es := by
    intro es
    induction es with
    | nil => exact fun h => nomatch h
    | cons e es ih =>
        obtain ⟨a, w⟩ := e
        intro h
        rw [lookup_cons_eq] at h
        by_cases hk : k = a
        · rw [if_pos hk] at h
          simp [put, hk, Option.some.inj h]
        · rw [if_neg hk] at h
          simp [put, Ne.symm hk, ih h]
  simp only [insert, hput s.entries h]

theorem contains_insert (s : Store κ ν) (k k' : κ) (v : ν) :
    (s.insert k v).contains k' = (decide (k' = k) || s.contains k') := by
  rw [contains, get?_insert]
  by_cases h : k' = k <;> simp [h, contains]

theorem lookup_filter (p : κ → Bool) (k : κ) (es : List (κ × ν)) :
    (es.filter fun e => p e.1).lookup k = if p k = true then es.lookup k else none := by
  induction es with
  | nil => simp
  | cons e es ih =>
    obtain ⟨a, w⟩ := e
    by_cases h : p a = true
    · rw [List.filter_cons_of_pos (by exact h), lookup_cons_eq, lookup_cons_eq, ih]
      by_cases h' : k = a
      · simp [h', h]
      · simp [h']
    · rw [List.filter_cons_of_neg (by exact h), ih, lookup_cons_eq]
      by_cases h' : k = a
      · simp [h', h]
      · simp [h']

@[simp] theorem get?_erase (s : Store κ ν) (k k' : κ) :
    (s.erase k).get? k' = if k' = k then none else s.get? k' := by
  rw [get?, erase, lookup_filter (fun a => decide (a ≠ k))]
  by_cases h : k' = k <;> simp [h, get?]

theorem get?_eraseAll (s : Store κ ν) (ks : List κ) (k : κ) :
    (s.eraseAll ks).get? k = if k ∈ ks then none else s.get? k := by
  induction ks generalizing s with
  | nil => simp [eraseAll]
  | cons a ks ih =>
    have h : s.eraseAll (a :: ks) = (s.erase a).eraseAll ks := rfl
    rw [h, ih, get?_erase]
    by_cases h1 : k ∈ ks <;> by_cases h2 : k = a <;> simp [h1, h2]

theorem get?_insertAll_of_notMem (s : Store κ ν) {es : List (κ × ν)} {k : κ}
    (h : k ∉ es.map Prod.fst) : (s.insertAll es).get? k = s.get? k := by
  induction es generalizing s with
  | nil => rfl
  | cons e es ih =>
      rw [List.map_cons, List.mem_cons, not_or] at h
      have hs : s.insertAll (e :: es) = (s.insert e.1 e.2).insertAll es := rfl
      rw [hs, ih _ h.2, get?_insert, if_neg h.1]

theorem get?_insertAll_of_mem (s : Store κ ν) {es : List (κ × ν)} (hn : (es.map Prod.fst).Nodup) {k : κ}
    {v : ν} (h : (k, v) ∈ es) : (s.insertAll es).get? k = some v := by
  induction es generalizing s with
  | nil => simp at h
  | cons e es ih =>
      rw [List.map_cons, List.nodup_cons] at hn
      have hs : s.insertAll (e :: es) = (s.insert e.1 e.2).insertAll es := rfl
      rw [hs]
      rcases List.mem_cons.mp h with rfl | h
      · rw [get?_insertAll_of_notMem _ hn.1, get?_insert_self]
      · exact ih _ hn.2 h

theorem get?_eq_some_iff (s : Store κ ν) {k : κ} {v : ν} : s.get? k = some v ↔ (k, v) ∈ s.entries := by
  have hn := s.nodup_keys
  rw [get?]
  generalize s.entries = es at hn
  induction es with
  | nil => simp
  | cons e es ih =>
      obtain ⟨a, w⟩ := e
      rw [List.map_cons, List.nodup_cons] at hn
      rw [lookup_cons_eq, List.mem_cons]
      by_cases h : k = a
      · subst h
        have hk : (k, v) ∉ es := fun hm => hn.1 (List.mem_map.mpr ⟨(k, v), hm, rfl⟩)
        simp [hk, eq_comm]
      · simp [h, ih hn.2]

theorem contains_iff_mem_keys (s : Store κ ν) {k : κ} : s.contains k = true ↔ k ∈ s.keys := by
  rw [contains, Option.isSome_iff_exists, keys, List.mem_map]
  constructor
  · rintro ⟨v, hv⟩
    exact ⟨(k, v), s.get?_eq_some_iff.mp hv, rfl⟩
  · rintro ⟨⟨k', v⟩, hv, rfl⟩
    exact ⟨v, s.get?_eq_some_iff.mpr hv⟩

end Store

end LayeredConfig
