import ChilizChain.Lib.Entries
import ChilizChain.Parlia.Slashing
import ChilizChain.Parlia.PathIndependence

/-! Whom a block out of turn gets slashed. From Plato on the in-turn validator is slashed exactly
if the spam rule would have let it sign. Before Plato any entry in `Recents` spares it: also one
block of a turn of fifty, and also the oldest entry, which the spam rule no longer counts. -/

namespace ChilizChain

open Stateful Snapshot Std.ExtTreeMap List

variable {σ δ : Type} {p : Finalizer σ δ} {header : BlockHead} {s : Snapshot} {spoiledVal : Address}

variable (hturn : header.difficulty ≠ some Parlia.diffInTurn)
  (hsnap : p.snapshot (sub64 header.number 1) header.parentHash header = .ok s)
  (hspoiled : s.inturnValidator p.k = .ok spoiledVal)

include hturn hsnap hspoiled in
theorem spoiledValidator_eq : p.spoiledValidator header =
      .ok (if p.signedRecently header s spoiledVal then none else some spoiledVal) := by
  have hliftSnap :
      liftErr (p.snapshot (sub64 header.number 1) header.parentHash header) = .ok s := by
    rw [hsnap]
    rfl
  have hliftSpoiled : liftErr (s.inturnValidator p.k) = .ok spoiledVal := by
    rw [hspoiled]
    rfl
  unfold Finalizer.spoiledValidator
  rw [if_neg hturn, hliftSnap, Except.ok_bind, hliftSpoiled]
  rfl

theorem signRecently_iff (s : Snapshot) (val : Address) : s.signRecently val = true ↔
      s.recentBlocks val ≠ [] ∧ s.turnLength ≤ (s.recentBlocks val).length % 256 := by
  simp [signRecently]

theorem exists_recent_of_recentBlocks {val : Address} (h : s.recentBlocks val ≠ []) :
    ∃ block : ℕ, s.recents[block]? = some val := by
  obtain ⟨block, hblock⟩ := exists_mem_of_ne_nil _ h
  obtain ⟨entry, hentry, rfl⟩ := mem_map.mp hblock
  obtain ⟨hmem, hsigner⟩ := mem_filter.mp hentry
  refine ⟨entry.1, ?_⟩
  rw [mem_toList_iff_getElem?_eq_some.mp hmem]
  simp only [decide_eq_true_eq] at hsigner
  rw [hsigner.2.2]

theorem any_values_iff (s : Snapshot) (val : Address) :
    s.recents.values.any (fun recent => recent = val) = true ↔
      ∃ block : ℕ, s.recents[block]? = some val := by
  rw [Entries.values_eq_map_toList, any_map, any_eq_true]
  constructor
  · rintro ⟨⟨block, signer⟩, hmem, hsigner⟩
    obtain rfl : signer = val := of_decide_eq_true hsigner
    exact ⟨block, mem_toList_iff_getElem?_eq_some.mp hmem⟩
  · rintro ⟨block, hblock⟩
    exact ⟨(block, val), mem_toList_iff_getElem?_eq_some.mpr hblock, decide_eq_true rfl⟩

include hturn hsnap hspoiled in
/-- The slash decision is the spam rule exactly if Plato is active, or the in-turn validator has no
entry in `Recents` at all, or it has signed its whole turn inside the window. -/
theorem slash_iff_allowed :
    (p.spoiledValidator header = .ok (some spoiledVal) ↔ s.signRecently spoiledVal = false) ↔
      p.c.isPlato header.number = true ∨ (∀ block : ℕ, s.recents[block]? ≠ some spoiledVal) ∨
        s.recentBlocks spoiledVal ≠ [] ∧
          s.turnLength ≤ (s.recentBlocks spoiledVal).length % 256 := by
  have hslash : p.spoiledValidator header = .ok (some spoiledVal) ↔
      p.signedRecently header s spoiledVal = false := by
    rw [spoiledValidator_eq hturn hsnap hspoiled]
    cases p.signedRecently header s spoiledVal <;> simp
  rw [hslash, ← signRecently_iff]
  by_cases hplato : p.c.isPlato header.number = true
  · simp [Finalizer.signedRecently, hplato]
  · have hany : p.signedRecently header s spoiledVal = false ↔
        ∀ block : ℕ, s.recents[block]? ≠ some spoiledVal := by
      rw [Finalizer.signedRecently, if_neg hplato, Bool.eq_false_iff, Ne, any_values_iff,
        not_exists]
    rw [hany]
    constructor
    · intro hiff
      by_cases hrecent : s.signRecently spoiledVal = true
      · exact .inr (.inr hrecent)
      · exact .inr (.inl (hiff.mpr (Bool.eq_false_iff.mpr hrecent)))
    · rintro (h | hnone | hrecent)
      · exact absurd h hplato
      · refine ⟨fun _ => Bool.eq_false_iff.mpr (fun hrecent => ?_), fun _ => hnone⟩
        obtain ⟨block, hblock⟩ :=
          exists_recent_of_recentBlocks ((signRecently_iff s spoiledVal).mp hrecent).1
        exact hnone block hblock
      · obtain ⟨block, hblock⟩ :=
          exists_recent_of_recentBlocks ((signRecently_iff s spoiledVal).mp hrecent).1
        refine ⟨fun hnone => absurd hblock (hnone block), fun hfree => ?_⟩
        exact absurd (hrecent.symm.trans hfree) (by decide)

/-! ### On a small chain -/

namespace Sample

/-- Blocks of three validators: the first one out of turn, by the validator whose turn is two
blocks later. It then misses its turn. -/
def earlyTurn : Header := { child genesis (addr 1) [] with difficulty := some Parlia.diffNoTurn }
def ownTurn : Header := child earlyTurn (addr 3) []
def takenTurn : Header := { child ownTurn (addr 2) [] with difficulty := some Parlia.diffNoTurn }

/-- Finalisation on that chain, with the snapshots that the engine retrieves. -/
def takenTurnFinalizer : Finalizer Purse TxData :=
  { slashingEngine (fun _ _ => false) with
    k := crypto
    c := engine.c
    chain := chain [earlyTurn, ownTurn]
    snapshot := fun number hash _ =>
      (exec (engine.snapshot (chain [earlyTurn, ownTurn]) number hash [] false none)
        Engine.fresh).1 }

/-- The snapshot of the parent of `takenTurn`. -/
def ownTurnSnap : Snapshot :=
  match takenTurnFinalizer.snapshot 2 takenTurn.parentHash takenTurn.head with
  | .ok s => s
  | .error _ => genesisSnap

theorem ownTurnSnap_eq :
    takenTurnFinalizer.snapshot (sub64 takenTurn.head.number 1) takenTurn.head.parentHash
      takenTurn.head = .ok ownTurnSnap := by
  decide +kernel

theorem slash_iff_allowed_takenTurn :
    (takenTurnFinalizer.spoiledValidator takenTurn.head = .ok (some (addr 1)) ↔
        ownTurnSnap.signRecently (addr 1) = false) ↔ engine.c.isPlato takenTurn.head.number = true ∨
        (∀ block : ℕ, ownTurnSnap.recents[block]? ≠ some (addr 1)) ∨
        ownTurnSnap.recentBlocks (addr 1) ≠ [] ∧
          ownTurnSnap.turnLength ≤ (ownTurnSnap.recentBlocks (addr 1)).length % 256 := by
  have hspoiled : ownTurnSnap.inturnValidator takenTurnFinalizer.k = .ok (addr 1) := by
    decide +kernel
  exact slash_iff_allowed (p := takenTurnFinalizer) (by decide) ownTurnSnap_eq hspoiled

/-- The engine accepts the three blocks, the in-turn validator of the third was free to sign it,
and yet it is not slashed. -/
theorem missed_turn_not_slashed :
    verdicts [] [earlyTurn, ownTurn, takenTurn] Engine.fresh = [.ok (), .ok (), .ok ()] ∧
      ownTurnSnap.inturnValidator crypto = .ok (addr 1) ∧
      ownTurnSnap.signRecently (addr 1) = false ∧
      takenTurnFinalizer.spoiledValidator takenTurn.head = .ok none := by
  decide +kernel

end Sample

end ChilizChain
