import ChilizChain.Parlia.Header

/-! The access list of a transaction: addresses, each with an index into the slot sets or with none.
Additions are undone in reverse order, by position. -/

namespace ChilizChain

open Std.ExtTreeMap

/-- `addresses` maps to no index (-1 in the source) while no slot of the address is listed. -/
structure AccessList where
  addresses : Std.ExtTreeMap Address (Option ℕ)
  slots : List (Finset Hash)
deriving DecidableEq

namespace AccessList

def new : AccessList := ⟨∅, []⟩

def containsAddress (al : AccessList) (address : Address) : Bool := address ∈ al.addresses

/-- `Contains`: whether the address and the slot are present. -/
def contains (al : AccessList) (address : Address) (slot : Hash) : Bool × Bool :=
  match al.addresses[address]? with
  | none => (false, false)
  | some none => (true, false)
  | some (some idx) => (true, decide (slot ∈ al.slots.getD idx ∅))

/-- `AddAddress`, with whether the address was added. -/
def addAddress (al : AccessList) (address : Address) : Bool × AccessList :=
  if address ∈ al.addresses then (false, al)
  else (true, { al with addresses := al.addresses.insert address none })

/-- `AddSlot`, with whether the address and the slot were added. -/
def addSlot (al : AccessList) (address : Address) (slot : Hash) : (Bool × Bool) × AccessList :=
  match al.addresses[address]? with
  | some (some idx) =>
    let slotmap := al.slots.getD idx ∅
    if slot ∈ slotmap then ((false, false), al)
    else ((false, true), { al with slots := al.slots.set idx (insert slot slotmap) })
  | found =>
    ((found.isNone, true),
      { addresses := al.addresses.insert address (some al.slots.length)
        slots := al.slots ++ [{slot}] })

/-- `DeleteSlot`, which panics when the address or its slots are not listed. -/
def deleteSlot (al : AccessList) (address : Address) (slot : Hash) : Option AccessList := do
  let idx ← (al.addresses[address]?).join
  let slotmap ← al.slots[idx]?
  let slotmap := slotmap.erase slot
  if slotmap = ∅ then
    return { addresses := al.addresses.insert address none, slots := al.slots.take idx }
  else return { al with slots := al.slots.set idx slotmap }

def deleteAddress (al : AccessList) (address : Address) : AccessList :=
  { al with addresses := al.addresses.erase address }

/-- Indices point to slot sets, which are not empty. -/
def Indexed (al : AccessList) : Prop :=
  ∀ (address : Address) (idx : ℕ), al.addresses[address]? = some (some idx) →
    ∃ slotmap : Finset Hash, al.slots[idx]? = some slotmap ∧ slotmap ≠ ∅

variable {al : AccessList} {a : Address} {slot : Hash}

theorem new_indexed : new.Indexed := by
  intro a idx h
  simp [new] at h

theorem insert_none_indexed (h : al.Indexed) (a : Address) :
    Indexed { al with addresses := al.addresses.insert a none } := by
  intro a' idx h'
  rw [getElem?_insert] at h'
  split at h'
  · cases h'
  · exact h _ _ h'

theorem addAddress_indexed (h : al.Indexed) (a : Address) : (al.addAddress a).2.Indexed := by
  unfold addAddress
  split
  · exact h
  · exact insert_none_indexed h a

theorem addSlot_indexed (h : al.Indexed) (a : Address) (slot : Hash) :
    (al.addSlot a slot).2.Indexed := by
  unfold addSlot
  split
  · rename_i idx hidx
    dsimp only
    split
    · exact h
    · intro a' idx' h'
      obtain ⟨slotmap, hslotmap, hne⟩ := h _ _ h'
      have hlt := (List.getElem?_eq_some_iff.mp hslotmap).1
      rw [List.getElem?_set]
      by_cases heq : idx = idx'
      · subst heq
        exact ⟨insert slot (al.slots.getD idx ∅), by simp [hlt], by simp⟩
      · exact ⟨slotmap, by simp [heq, hslotmap], hne⟩
  · intro a' idx' h'
    rw [getElem?_insert] at h'
    split at h'
    · cases h'
      exact ⟨{slot}, by simp, by simp⟩
    · obtain ⟨slotmap, hslotmap, hne⟩ := h _ _ h'
      have hlt := (List.getElem?_eq_some_iff.mp hslotmap).1
      exact ⟨slotmap, by rw [List.getElem?_append_left hlt, hslotmap], hne⟩

/-! Deleting what was added gives back the same list, also in the layout of the slot sets: a set
that becomes empty is the last one. -/

theorem erase_insert_self {addresses : Std.ExtTreeMap Address (Option ℕ)}
    (h : a ∉ addresses) (idx : Option ℕ) : (addresses.insert a idx).erase a = addresses := by
  apply ext_getElem?
  intro a'
  rw [getElem?_erase, getElem?_insert]
  split
  · rename_i heq
    rw [Std.LawfulEqCmp.compare_eq_iff_eq] at heq
    rw [← heq, getElem?_eq_none h]
  · rfl

theorem deleteAddress_insert (h : a ∉ al.addresses) :
    deleteAddress { al with addresses := al.addresses.insert a none } a = al := by
  rw [deleteAddress, erase_insert_self h]

theorem deleteSlot_new (al : AccessList) (a : Address) (slot : Hash) :
    deleteSlot { addresses := al.addresses.insert a (some al.slots.length)
                 slots := al.slots ++ [{slot}] } a slot =
      some { al with addresses := al.addresses.insert a none } := by
  have hinsert : (al.addresses.insert a (some al.slots.length)).insert a none =
      al.addresses.insert a none := by
    apply ext_getElem?
    intro a'
    simp only [getElem?_insert]
    split <;> rfl
  simp [deleteSlot, hinsert]

theorem insert_of_getElem? {idx : Option ℕ} (h : al.addresses[a]? = some idx) :
    al.addresses.insert a idx = al.addresses := by
  apply ext_getElem?
  intro a'
  rw [getElem?_insert]
  split
  · rename_i heq
    rw [Std.LawfulEqCmp.compare_eq_iff_eq] at heq
    rw [← heq, h]
  · rfl

theorem deleteSlot_join (hal : al.Indexed) {idx : ℕ}
    (hidx : al.addresses[a]? = some (some idx)) (hslot : slot ∉ al.slots.getD idx ∅) :
    deleteSlot { al with slots := al.slots.set idx (insert slot (al.slots.getD idx ∅)) }
      a slot = some al := by
  obtain ⟨slotmap, hslotmap, hne⟩ := hal _ _ hidx
  obtain ⟨hlt, hget⟩ := List.getElem?_eq_some_iff.mp hslotmap
  rw [List.getD_eq_getElem?_getD, hslotmap, Option.getD_some] at hslot ⊢
  have herase : (insert slot slotmap).erase slot = slotmap := Finset.erase_insert hslot
  have hset : al.slots.set idx slotmap = al.slots := by
    rw [← hget, List.set_getElem_self]
  simp [deleteSlot, hidx, hlt, herase, hne, hset]

/-- What `AddSlot` can do, and how it is undone. -/
theorem addSlot_cases (hal : al.Indexed) (a : Address) (slot : Hash) :
    al.addSlot a slot = ((false, false), al) ∨ (∃ al', al.addSlot a slot = ((false, true), al') ∧
      al'.deleteSlot a slot = some al) ∨ (∃ al' al'', al.addSlot a slot = ((true, true), al') ∧
      al'.deleteSlot a slot = some al'' ∧ al''.deleteAddress a = al) := by
  unfold addSlot
  split
  · rename_i idx hidx
    dsimp only
    split
    · exact Or.inl rfl
    · rename_i hslot
      exact Or.inr (Or.inl ⟨_, rfl, deleteSlot_join hal hidx hslot⟩)
  · rename_i hnone
    cases hfound : al.addresses[a]? with
    | none =>
      have hmem : a ∉ al.addresses := by
        rw [mem_iff_isSome_getElem?, hfound]
        simp
      exact Or.inr (Or.inr ⟨_, _, rfl, deleteSlot_new al a slot, deleteAddress_insert hmem⟩)
    | some found =>
      cases found with
      | none =>
        refine Or.inr (Or.inl ⟨_, rfl, ?_⟩)
        rw [deleteSlot_new, insert_of_getElem? hfound]
      | some idx => exact absurd hfound (hnone idx)

end AccessList

end ChilizChain
