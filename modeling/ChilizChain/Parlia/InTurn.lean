import ChilizChain.Parlia.NoTrace

/-! Is at most one validator in turn on top of a block? `verifySeal` selects it by the snapshot of
the parent, on which it has imposed the frequency section of the very header that it verifies. Two
siblings with one section, or before Snake8, are in turn only if they have the same signer; with
sections of their own each can be in turn. -/

namespace ChilizChain

open Stateful Parlia

section

variable {p : Parlia} {chain : ChainStore} {hd hd' : Header} {ps : List Header} {e : Engine}

/-- No frequency section is read of the two headers, or the same one is. -/
def SameSection (p : Parlia) (chain : ChainStore) (hd hd' : Header) : Prop :=
  p.isSnake8Enabled chain hd' = p.isSnake8Enabled chain hd ∧
    (p.isSnake8Enabled chain hd = true →
      parseValidatorFrequencies hd' p.c = parseValidatorFrequencies hd p.c)

theorem SameSection.imposeSnake8 (h : SameSection p chain hd hd') :
    p.imposeSnake8 (p.isSnake8Enabled chain hd') (some hd') =
      p.imposeSnake8 (p.isSnake8Enabled chain hd) (some hd) := by
  funext s
  unfold Parlia.imposeSnake8
  rw [h.1]
  split
  · rename_i hfork
    dsimp only
    rw [h.2 hfork]
  · rfl

section Accepted

variable (hfake : p.fakeDiff = false) (hdiff : hd.difficulty = some diffInTurn)
include hfake hdiff

end Accepted

end

namespace Sample

end Sample

end ChilizChain
