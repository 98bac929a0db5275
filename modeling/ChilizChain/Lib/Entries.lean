import Std.Data.ExtTreeMap
import Mathlib.Data.List.Basic

/-! The values of a tree map. -/

namespace Entries

open Std

variable {κ β : Type} [Ord κ] [TransOrd κ]

theorem values_eq_map_toList (t : ExtTreeMap κ β) : t.values = t.toList.map Prod.snd := by
  obtain ⟨⟨inner⟩⟩ := t
  induction inner using Quotient.ind with
  | _ m =>
    show m.inner.values = (Std.DTreeMap.Internal.Impl.Const.toList m.inner).map Prod.snd
    rw [Std.DTreeMap.Internal.Impl.values_eq_map_snd,
      Std.DTreeMap.Internal.Impl.Const.toList_eq_toListModel_map, List.map_map]
    rfl

end Entries
