import Mathlib

/-! A least-recently-used cache: entries with distinct keys, most recently used first, and a
capacity beyond which adding a key evicts the last entry. -/

structure Lru (κ α : Type) where
  capacity : ℕ
  entries : AList fun _ : κ => α

namespace Lru

variable {κ α : Type} [DecidableEq κ]

def empty (capacity : ℕ) : Lru κ α := ⟨capacity, ∅⟩

def lookup (c : Lru κ α) (key : κ) : Option α := c.entries.lookup key

variable (c : Lru κ α)

variable (key : κ)

/-- A hit marks the entry as most recently used. -/
def get : Option α × Lru κ α :=
  match c.lookup key with
  | none => (none, c)
  | some value => (some value, { c with entries := c.entries.insert key value })

def add (value : α) : Lru κ α :=
  if key ∈ c.entries ∨ c.entries.keys.length < c.capacity then
    { c with entries := c.entries.insert key value }
  else
    match c.entries.keys.getLast? with
    | some oldest => { c with entries := (c.entries.erase oldest).insert key value }
    | none => { c with entries := c.entries.insert key value }

@[simp] theorem lookup_empty (capacity : ℕ) (key : κ) :
    (empty capacity : Lru κ α).lookup key = none := by
  simp [lookup, empty]

theorem get_fst : (c.get key).1 = c.lookup key := by
  unfold get
  cases c.lookup key <;> rfl

theorem lookup_get (key k : κ) : (c.get key).2.lookup k = c.lookup k := by
  unfold get
  cases h : c.lookup key with
  | none => rfl
  | some value =>
    by_cases hk : k = key
    · subst hk
      rw [h]
      exact AList.lookup_insert _
    · exact AList.lookup_insert_ne hk

@[simp] theorem lookup_add_self (value : α) : (c.add key value).lookup key = some value := by
  unfold add
  split_ifs
  · exact AList.lookup_insert _
  · split <;> exact AList.lookup_insert _

theorem lookup_of_lookup_add {c : Lru κ α} {key k : κ} {value v : α} (hk : k ≠ key)
    (h : (c.add key value).lookup k = some v) : c.lookup k = some v := by
  unfold add at h
  split_ifs at h
  · rw [← h]
    exact (AList.lookup_insert_ne hk).symm
  · split at h
    · rename_i oldest _
      rw [lookup, AList.lookup_insert_ne hk] at h
      by_cases ho : k = oldest
      · rw [ho, AList.lookup_erase] at h
        cases h
      · rw [AList.lookup_erase_ne ho] at h
        exact h
    · rw [← h]
      exact (AList.lookup_insert_ne hk).symm

end Lru
