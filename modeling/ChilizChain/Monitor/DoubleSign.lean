import ChilizChain.Lib.Heap
import ChilizChain.Parlia.Header

/-! # The double-sign monitor

For every block number the monitor keeps the first header that it sees, until the number is
evicted. Later headers of the number are compared with that one only. -/

namespace ChilizChain

open Function List

def maxCacheHeader : ℕ := 100

/-- `Number.Uint64()`. -/
def Header.key (h : Header) : UInt64 := .ofNat h.number

/-- `-Number.Int64()`. -/
def Header.priority (h : Header) : Int64 := -h.key.toInt64

structure DoubleSignMonitor where
  headerNumbers : List Header
  headers : UInt64 → Option Header

namespace DoubleSignMonitor

def newDoubleSignMonitor : DoubleSignMonitor := ⟨[], fun _ => none⟩

/-- `Less` of the queue: the higher priority is first. -/
def less (h1 h2 : Header) : Bool := h2.priority < h1.priority

variable (hash : Header → Hash) (m : DoubleSignMonitor)

def isDoubleSignHeaders (h1 h2 : Header) : Bool :=
  h1.number = h2.number && h1.parentHash = h2.parentHash && hash h1 ≠ hash h2 &&
    h1.coinbase = h2.coinbase

def deleteOldHeader : DoubleSignMonitor :=
  match Heap.pop less m.headerNumbers with
  | none => m
  | some (h, queue) => ⟨queue, update m.headers h.key none⟩

/-- The header that is reported, if there is one. -/
def checkHeader (h : Header) : Option Header × DoubleSignMonitor :=
  match m.headers h.key with
  | none =>
    let m := if maxCacheHeader < m.headerNumbers.length then m.deleteOldHeader else m
    (none, ⟨Heap.push less m.headerNumbers h, update m.headers h.key (some h)⟩)
  | some h2 => (if isDoubleSignHeaders hash h h2 then some h2 else none, m)

/-- The map and the queue hold the same headers, one for a number and not too many. -/
structure Consistent : Prop where
  same : ∀ k h, m.headers k = some h ↔ h ∈ m.headerNumbers ∧ h.key = k
  nodup : (m.headerNumbers.map Header.key).Nodup
  length_le : m.headerNumbers.length ≤ maxCacheHeader + 1

variable {hash m} {h : Header}

/-- A monitor after an eviction, or one that has room. -/
structure Trimmed (m m' : DoubleSignMonitor) : Prop where
  consistent : m'.Consistent
  length_le : m'.headerNumbers.length ≤ maxCacheHeader
  headers : ∀ k, m'.headers k = none ∨ m'.headers k = m.headers k

theorem Consistent.deleteOldHeader (hc : m.Consistent) (hne : m.headerNumbers ≠ []) :
    Trimmed m m.deleteOldHeader := by
  obtain ⟨old, rest, hqueue⟩ := exists_cons_of_ne_nil hne
  obtain ⟨queue, hpop, hperm⟩ := Heap.pop_cons less old rest
  have hnodup := hc.nodup
  have hle := hc.length_le
  have hlength := hperm.length_eq
  rw [hqueue, map_cons, nodup_cons, ← (hperm.map Header.key).mem_iff,
    ← (hperm.map Header.key).nodup_iff] at hnodup
  rw [hqueue, length_cons] at hle
  rw [DoubleSignMonitor.deleteOldHeader, hqueue, hpop]
  refine ⟨⟨fun k h => ?_, hnodup.2, by dsimp only; omega⟩, by dsimp only; omega, fun k => ?_⟩
  · have hsame := hc.same k h
    rw [hqueue, mem_cons, ← hperm.mem_iff] at hsame
    simp only [update_apply]
    have := hnodup.1
    grind
  · simp only [update_apply]
    split_ifs
    · exact .inl rfl
    · exact .inr rfl

theorem Trimmed.add {m' : DoubleSignMonitor} (ht : Trimmed m m') (hnew : m.headers h.key = none) :
    Consistent ⟨Heap.push less m'.headerNumbers h, update m'.headers h.key (some h)⟩ := by
  have hperm : (Heap.push less m'.headerNumbers h).Perm _ := Heap.push_perm ..
  have hsame := ht.consistent.same
  have hnew' : m'.headers h.key = none := (ht.headers _).elim id (·.trans hnew)
  refine ⟨fun k g => ?_, ?_, ?_⟩
  · simp only [hperm.mem_iff, mem_cons, update_apply]
    grind
  · refine (hperm.map Header.key).nodup_iff.mpr (nodup_cons.mpr ⟨?_, ht.consistent.nodup⟩)
    intro hmem
    obtain ⟨g, hg, hkey⟩ := mem_map.mp hmem
    rw [(hsame h.key g).mpr ⟨hg, hkey⟩] at hnew'
    cases hnew'
  · simpa [hperm.length_eq] using ht.length_le

/-- An entry is kept, evicted, or made for the header that is checked. -/
theorem Consistent.checkHeader (hc : m.Consistent) :
    (m.checkHeader hash h).2.Consistent ∧ ∀ k, (m.checkHeader hash h).2.headers k = none ∨
      (m.checkHeader hash h).2.headers k =
        (m.headers k).or (if h.key = k then some h else none) := by
  rw [DoubleSignMonitor.checkHeader]
  cases hm : m.headers h.key with
  | some h2 => exact ⟨hc, fun k => .inr (by grind)⟩
  | none =>
    have ht : Trimmed m
        (if maxCacheHeader < m.headerNumbers.length then m.deleteOldHeader else m) := by
      split_ifs with hfull
      · exact hc.deleteOldHeader (by rintro hnil; simp [hnil] at hfull)
      · exact ⟨hc, not_lt.mp hfull, fun k => .inr rfl⟩
    refine ⟨ht.add hm, fun k => ?_⟩
    simp only [update_apply]
    have := ht.headers k
    grind

end DoubleSignMonitor

/-- A monitor with the headers that were passed to it since their number was last evicted. -/
structure Monitoring where
  monitor : DoubleSignMonitor
  passed : UInt64 → List Header

namespace Monitoring

open DoubleSignMonitor

def start : Monitoring := ⟨newDoubleSignMonitor, fun _ => []⟩

variable (hash : Header → Hash) (s : Monitoring) (h : Header)

def step : Monitoring where
  monitor := (s.monitor.checkHeader hash h).2
  passed k :=
    if ((s.monitor.checkHeader hash h).2.headers k).isNone then []
    else s.passed k ++ if h.key = k then [h] else []

/-- A header that was passed before and makes a double sign with `h`. -/
def DoubleSigned : Prop := ∃ g ∈ s.passed h.key, isDoubleSignHeaders hash h g

/-- Such a header is reported if there is one. -/
def Complete : Prop := s.DoubleSigned hash h → ∃ g ∈ s.passed h.key,
  isDoubleSignHeaders hash h g ∧ (s.monitor.checkHeader hash h).1 = some g

/-- The map has the first header of every number. -/
structure Sound : Prop where
  consistent : s.monitor.Consistent
  first : ∀ k, s.monitor.headers k = (s.passed k).head?

variable {s}

theorem Sound.step (hs : s.Sound) : (s.step hash h).Sound := by
  obtain ⟨hconsistent, hheaders⟩ : (s.monitor.checkHeader hash h).2.Consistent ∧ _ :=
    hs.consistent.checkHeader
  refine ⟨hconsistent, fun k => ?_⟩
  rcases hheaders k with hnone | hkept
  · simp [Monitoring.step, hnone]
  · simp only [Monitoring.step]
    split_ifs with hnone hkey
    · exact Option.isNone_iff_eq_none.mp hnone
    · rw [hkept, if_pos hkey, head?_append, hs.first, head?_cons]
    · rw [hkept, if_neg hkey, append_nil, hs.first, Option.or_none]

theorem sound_run (hs : List Header) : (hs.foldl (step hash) start).Sound := by
  refine foldlRecOn hs _
    ⟨⟨by simp [start, newDoubleSignMonitor], .nil, Nat.zero_le _⟩, fun _ => rfl⟩ ?_
  exact fun s hs h _ => hs.step hash h

/-- A double sign is reported if and only if the first header of the number is part of one; the
map and the queue agree in any case. -/
theorem doubleSign_complete_iff (hs : List Header) :
    let s := hs.foldl (step hash) start
    (s.Complete hash h ↔ (s.DoubleSigned hash h →
      ∃ first ∈ (s.passed h.key).head?, isDoubleSignHeaders hash h first)) ∧
    s.monitor.Consistent := by
  intro s
  have hs : s.Sound := sound_run hash hs
  refine ⟨forall_congr' fun _ => ?_, hs.consistent⟩
  simp only [checkHeader, hs.first]
  cases hfirst : (s.passed h.key).head? with
  | none => simp
  | some first =>
    have hmem := mem_of_head? hfirst
    by_cases hdouble : isDoubleSignHeaders hash h first
    · simpa [hdouble] using hmem
    · simp [hdouble]

/-- The second signer of a number signs twice. -/
theorem doubleSign_missed :
    let header (signer : UInt8) (time : ℕ) : Header :=
      { (default : Header) with coinbase := .ofBytes 20 [signer], time }
    let hash (h : Header) : Hash := .ofBytes 32 [.ofNat h.time]
    let s := [header 1 1, header 2 2].foldl (step hash) start
    s.DoubleSigned hash (header 2 3) ∧ (s.monitor.checkHeader hash (header 2 3)).1 = none := by
  intro header hash s
  exact ⟨⟨header 2 2, by decide, by decide⟩, by decide⟩

end Monitoring

end ChilizChain
