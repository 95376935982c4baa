import CornScript.Bytes

/-! # Finite maps from names

A map from byte strings, kept as a list with one entry per key in the order in which the keys were
first inserted.
-/

namespace CornScript

universe u

namespace Dict

variable {α : Type u}

def upsert (k : Bytes) (v : α) : List (Bytes × α) → List (Bytes × α)
  | [] => [(k, v)]
  | (k', v') :: rest => if k' = k then (k, v) :: rest else (k', v') :: upsert k v rest

theorem mem_keys_upsert {k x : Bytes} {v : α} {entries : List (Bytes × α)} :
    x ∈ (upsert k v entries).map Prod.fst ↔ x = k ∨ x ∈ entries.map Prod.fst := by
  induction entries with
  | nil => simp [upsert]
  | cons e rest ih =>
    unfold upsert
    split
    · rename_i h; simp [h]
    · rw [List.map_cons, List.mem_cons, ih, List.map_cons, List.mem_cons]
      exact or_left_comm

theorem nodup_upsert (k : Bytes) (v : α) {entries : List (Bytes × α)}
    (h : (entries.map Prod.fst).Nodup) : ((upsert k v entries).map Prod.fst).Nodup := by
  induction entries with
  | nil => simp [upsert]
  | cons e rest ih =>
    rw [List.map_cons, List.nodup_cons] at h
    unfold upsert
    split
    · rename_i he
      exact List.nodup_cons.mpr ⟨he ▸ h.1, h.2⟩
    · rename_i he
      refine List.nodup_cons.mpr ⟨fun hm => ?_, ih h.2⟩
      rcases mem_keys_upsert.mp hm with hk | hk
      · exact he hk
      · exact h.1 hk

end Dict

structure Dict (α : Type u) where
  entries : List (Bytes × α)
  nodup : (entries.map Prod.fst).Nodup

namespace Dict

variable {α : Type u}

def empty : Dict α := ⟨[], by simp⟩

def get? (d : Dict α) (k : Bytes) : Option α :=
  d.entries.lookup k

def insert (d : Dict α) (k : Bytes) (v : α) : Dict α :=
  ⟨upsert k v d.entries, nodup_upsert k v d.nodup⟩

def size (d : Dict α) : Nat :=
  d.entries.length

def keys (d : Dict α) : List Bytes :=
  d.entries.map Prod.fst

def values (d : Dict α) : List α :=
  d.entries.map Prod.snd

theorem lookup_upsert (k x : Bytes) (v : α) (entries : List (Bytes × α)) :
    (upsert k v entries).lookup x = if x = k then some v else entries.lookup x := by
  induction entries with
  | nil => by_cases h : x = k <;> simp [upsert, List.lookup_cons, beq_eq_false_iff_ne.mpr, h]
  | cons e rest ih =>
    obtain ⟨k', v'⟩ := e
    unfold upsert
    by_cases hk : k' = k
    · subst hk
      by_cases hx : x = k' <;> simp [List.lookup_cons, beq_eq_false_iff_ne.mpr, hx]
    · by_cases hx : x = k'
      · subst hx
        simp [hk]
      · simp [List.lookup_cons, beq_eq_false_iff_ne.mpr, hk, hx, ih]

theorem get?_insert (d : Dict α) (k x : Bytes) (v : α) :
    (d.insert k v).get? x = if x = k then some v else d.get? x :=
  lookup_upsert k x v d.entries

theorem lookup_eq_some_iff {entries : List (Bytes × α)} (hn : (entries.map Prod.fst).Nodup)
    (k : Bytes) (v : α) : entries.lookup k = some v ↔ (k, v) ∈ entries := by
  induction entries with
  | nil => simp
  | cons e rest ih =>
    obtain ⟨k', v'⟩ := e
    rw [List.map_cons, List.nodup_cons] at hn
    by_cases hk : k = k'
    · subst hk
      have hr : (k, v) ∉ rest := fun hm => hn.1 (List.mem_map.mpr ⟨_, hm, rfl⟩)
      simp [hr, eq_comm]
    · simp [List.lookup_cons, beq_eq_false_iff_ne.mpr, hk, ih hn.2]

theorem get?_eq_some_iff (d : Dict α) (k : Bytes) (v : α) :
    d.get? k = some v ↔ (k, v) ∈ d.entries :=
  lookup_eq_some_iff d.nodup k v

theorem mem_values_iff (d : Dict α) (v : α) : v ∈ d.values ↔ ∃ k, d.get? k = some v := by
  simp [values, get?_eq_some_iff]

end Dict

end CornScript
