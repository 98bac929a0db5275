import ChilizChain.PathDb.Capping

/-! The lookup and the parent pointers.

For every account and slot the lookup lists the layers that modified it, oldest first, so that no
layer stands before one of its ancestors. With the descendants of every layer at hand, the last
listed layer that is the state itself or an ancestor of it is the one at which the walk along the
parents ends. -/

namespace ChilizChain.PathDb

open Ancestry Relation Option List Lookup

namespace LayerTree

/-- The descendants and the lookup say what the layers say. -/
structure Indexed (t : LayerTree) : Prop where
  descendants : ∀ {x a : Hash}, x ∈ t.descendants a ↔ Below t.up x a
  listed : ∀ {item : Item} {r : Hash}, r ∈ t.lookup item ↔
    ∃ dl, t.get r = some (.diff dl) ∧ Lookup.holds dl.changes item = true
  nodup : ∀ item, (t.lookup item).Nodup
  ordered : ∀ item, (t.lookup item).Pairwise fun a b => ¬ Below t.up a b

variable {t t' : LayerTree} {root : Hash} {ref : Ref} {item : Item}

theorem Indexed.of_db (hi : t.Indexed) (db : Store) : Indexed { t with db := db } :=
  ⟨hi.descendants, hi.listed, hi.nodup, hi.ordered⟩

theorem indexed_of_single {heap : Heap} {n : Ref} {db : Store} {dl : DiskLayer}
    (hat : heap[n]? = some (.disk dl)) :
    Indexed ⟨heap, n, Std.ExtTreeMap.empty.insert root n, fun _ => [], fun _ => [], db⟩ := by
  have hget : ∀ {r : Hash} {x : Ref}, (Std.ExtTreeMap.empty.insert root n :
      Std.ExtTreeMap Hash Ref compare)[r]? = some x → x = n := by
    intro r x hx
    rw [Std.ExtTreeMap.getElem?_insert] at hx
    split at hx
    · exact (Option.some.inj hx).symm
    · simp at hx
  refine ⟨?_, ?_, fun _ => nodup_nil, fun _ => List.Pairwise.nil⟩
  · intro x a
    refine ⟨fun h => absurd h not_mem_nil, fun h => ?_⟩
    obtain ⟨y, hy, -⟩ := below_iff_parent.mp h
    obtain ⟨ref, href, hparent⟩ := bind_eq_some_iff.mp hy
    obtain rfl := hget href
    simp only [parentRoot, hat] at hparent
    cases hparent
  · intro item r
    refine ⟨fun h => absurd h not_mem_nil, ?_⟩
    rintro ⟨d, hd, -⟩
    obtain ⟨ref, href, hlayer⟩ := bind_eq_some_iff.mp hd
    obtain rfl := hget href
    cases hat.symm.trans hlayer

/-! ## Adding a layer -/

theorem Linked.mem_roots (h : t.Linked) {path : List (Ref × DiffLayer)} {b : Ref}
    {base : DiskLayer} (href : t.layers[root]? = some ref) (hpath : Chain t.heap ref path b)
    (hb : b = t.base) (hbase : t.heap[b]? = some (.disk base)) {a : Hash} :
    a ∈ path.map (·.2.root) ++ [base.root] ↔ BelowEq t.up root a := by
  induction hpath generalizing root with
  | disk hdisk =>
    cases hbase.symm.trans hdisk
    have hroot := h.root_eq href hbase
    have hnone : t.up root = none := by
      simp only [up, href, bind_some, parentRoot, hbase]
    simp only [map_nil, nil_append, mem_singleton]
    refine ⟨fun ha => ha ▸ hroot ▸ .refl, fun ha => ?_⟩
    rcases belowEq_iff.mp ha with rfl | ha
    · exact hroot.symm
    · obtain ⟨y, hy, -⟩ := below_iff_parent.mp ha
      cases hnone.symm.trans hy
  | diff hdl _ _ _ ih =>
    obtain ⟨p, hp, hreg, -, hup⟩ := h.parent_of_diff href hdl
    have hroot : _ = root := h.root_eq href hdl
    simp only [map_cons, cons_append, mem_cons]
    rw [ih hreg hb hbase, @belowEq_iff _ _ root, below_iff_parent]
    constructor
    · rintro (rfl | ha)
      · exact .inl hroot
      · exact .inr ⟨_, hup, ha⟩
    · rintro (rfl | ⟨y, hy, ha⟩)
      · exact .inl hroot.symm
      · obtain rfl := parent_unique hup hy
        exact .inr ha

namespace Added

variable {parentRoot : Hash} {block : ℕ} {changes : Changes} {p : Layer}

section

variable (ha : Added t root parentRoot block changes ref p t')
include ha

theorem up_eq (h : t.Linked) : t'.up = Function.update t.up root (some parentRoot) := by
  funext r
  have hnew : p.rootHash = parentRoot := h.root_eq ha.parent ha.layer
  by_cases hr : r = root
  · subst hr
    rw [Function.update_self, up, ha.layers_eq, if_pos rfl, bind_some, PathDb.parentRoot,
      ha.heap_new]
    simp only [ha.heap_eq ha.layer, map_some, hnew]
  · rw [Function.update_of_ne hr, up, up, ha.layers_eq, if_neg hr]
    cases hx : t.layers[r]? with
    | none => rfl
    | some x =>
      obtain ⟨l, hl, -, -⟩ := h.roots hx
      cases l with
      | disk dl => simp only [bind_some, PathDb.parentRoot, hl, ha.heap_eq hl]
      | diff dl =>
        obtain ⟨q, hq, -, -⟩ := h.parents hx hl
        simp only [bind_some, PathDb.parentRoot, hl, ha.heap_eq hl, hq, ha.heap_eq hq]

theorem get_eq (h : t.Linked) (r : Hash) :
    t'.get r = if r = root then some (.diff ⟨root, p.stateID + 1, block, changes, ref⟩)
      else t.get r := by
  rw [get, ha.layers_eq]
  by_cases hr : r = root
  · rw [if_pos hr, if_pos hr, bind_some, ha.heap_new]
  · rw [if_neg hr, if_neg hr, get]
    cases hx : t.layers[r]? with
    | none => rfl
    | some x =>
      obtain ⟨l, hl, -, -⟩ := h.roots hx
      simp only [bind_some, hl, ha.heap_eq hl]

theorem indexed (h : t.Linked) (hi : t.Indexed) : t'.Indexed := by
  have hfree : t.up root = none := by rw [up, ha.free, bind_none]
  have hleaf : ∀ w, ¬ Parent t.up w root := by
    intro w hw
    obtain ⟨_, _, _, -, -, -, -, -, hreg, -⟩ := h.of_up hw
    rw [ha.free] at hreg
    cases hreg
  have hbelow : ∀ {z a},
      Below t'.up z a ↔ Below t.up z a ∨ (z = root ∧ BelowEq t.up parentRoot a) := by
    intro z a
    rw [ha.up_eq h]
    exact below_leaf_iff hfree hleaf ha.ne
  have hunlisted : ∀ item, root ∉ t.lookup item := by
    intro item hmem
    obtain ⟨dl, hget, -⟩ := hi.listed.mp hmem
    rw [get, ha.free] at hget
    cases hget
  have hlookup : t'.lookup = t.lookup.addLayer ⟨root, p.stateID + 1, block, changes, ref⟩ := by
    rw [ha.eq]
  -- nothing is below the new layer yet, and what was below something still is
  have hbelow_old : ∀ {z a}, z ≠ root → (Below t'.up z a ↔ Below t.up z a) := by
    intro z a hz
    rw [hbelow]
    simp [hz]
  refine ⟨?_, ?_, ?_, ?_⟩
  · intro x a
    have hdesc : t'.descendants a = if a ∈ rootsFrom t.heap (p.stateID + 1) ref
        then root :: t.descendants a else t.descendants a := by
      rw [ha.eq]
      rfl
    obtain ⟨base, hbase, -⟩ := h.base
    obtain ⟨path, hpath⟩ := h.chain ha.parent
    have hfuel : path.length < p.stateID + 1 := by
      rw [hpath.stateID_eq hbase ha.layer]
      omega
    have hroots : a ∈ rootsFrom t.heap (p.stateID + 1) ref ↔ BelowEq t.up parentRoot a := by
      rw [rootsFrom_chain hpath hbase hfuel]
      exact h.mem_roots ha.parent hpath rfl hbase
    rw [hdesc, hbelow, ← hi.descendants, ← hroots]
    split
    · rename_i hmem
      simp [hmem, or_comm]
    · rename_i hmem
      simp [hmem]
  · intro item r
    rw [hlookup, ha.get_eq h, addLayer]
    by_cases hr : r = root
    · subst hr
      cases hh : holds changes item with
      | false => simpa [hh] using hunlisted item
      | true => simp [hh]
    · rw [if_neg hr, ← hi.listed]
      split
      · simp [hr]
      · rfl
  · intro item
    rw [hlookup, addLayer]
    split
    · exact nodup_append.mpr ⟨hi.nodup item, nodup_singleton _, by
        intro a hmem b hb hab
        obtain rfl : b = root := by simpa using hb
        exact hunlisted item (hab ▸ hmem)⟩
    · exact hi.nodup item
  · intro item
    have hold : (t.lookup item).Pairwise fun a b => ¬ Below t'.up a b := by
      refine (hi.ordered item).imp_of_mem ?_
      intro a b hamem _ hab
      rw [hbelow_old (fun he => hunlisted item (he ▸ hamem))]
      exact hab
    rw [hlookup, addLayer]
    split
    · refine pairwise_append.mpr ⟨hold, pairwise_singleton .., ?_⟩
      intro a hamem b hb
      obtain rfl : b = root := by simpa using hb
      rw [hbelow_old (fun he => hunlisted item (he ▸ hamem))]
      exact not_below_leaf hleaf
    · exact hold

end

end Added

/-! ## Removing layers -/

theorem removeAll_descendants (removed : List Hash) (t : LayerTree) (a : Hash) :
    (removed.foldl removeOne t).descendants a = if a ∈ removed then [] else t.descendants a := by
  induction removed generalizing t with
  | nil => rfl
  | cons x removed ih =>
    rw [foldl_cons, ih]
    by_cases hx : a = x
    · subst hx
      simp [removeOne]
    · simp [removeOne, hx]

theorem removeOne_lookup (hroots : ∀ r dl, t.get r = some (.diff dl) → dl.root = r)
    (hnodup : (t.lookup item).Nodup) (x : Hash) :
    ((t.removeOne x).lookup item).Sublist (t.lookup item) ∧
      ∀ r, r ∈ (t.removeOne x).lookup item ↔ r ∈ t.lookup item ∧
        ¬ (r = x ∧ ∃ dl, t.get r = some (.diff dl) ∧ holds dl.changes item = true) := by
  have hkeep : (t.removeOne x).lookup item = t.lookup item →
      (¬ ∃ dl, t.get x = some (.diff dl) ∧ holds dl.changes item = true) →
      ((t.removeOne x).lookup item).Sublist (t.lookup item) ∧
      ∀ r, r ∈ (t.removeOne x).lookup item ↔ r ∈ t.lookup item ∧
        ¬ (r = x ∧ ∃ dl, t.get r = some (.diff dl) ∧ holds dl.changes item = true) := by
    intro hsame hnone
    rw [hsame]
    refine ⟨.refl _, fun r => ⟨fun hr => ⟨hr, ?_⟩, fun hr => hr.1⟩⟩
    rintro ⟨rfl, hsome⟩
    exact hnone hsome
  cases hget : t.get x with
  | none => exact hkeep (by simp [removeOne, hget, clear]) (by simp [hget])
  | some l =>
    cases l with
    | disk dl => exact hkeep (by simp [removeOne, hget, clear]) (by simp [hget])
    | diff dl =>
      cases hholds : holds dl.changes item with
      | false =>
        refine hkeep (by simp [removeOne, hget, clear, removeLayer, hholds]) ?_
        rintro ⟨dl', hdl', htrue⟩
        cases hget.symm.trans hdl'
        rw [hholds] at htrue
        cases htrue
      | true =>
        have hroot := hroots x dl hget
        have hlookup : (t.removeOne x).lookup item = (t.lookup item).erase x := by
          simp [removeOne, hget, clear, removeLayer, hholds, hroot]
        rw [hlookup]
        refine ⟨erase_sublist, fun r => ?_⟩
        rw [hnodup.mem_erase_iff]
        constructor
        · rintro ⟨hne, hr⟩
          exact ⟨hr, fun hx => hne hx.1⟩
        · rintro ⟨hr, hnot⟩
          exact ⟨fun he => hnot ⟨he, dl, he ▸ hget, hholds⟩, hr⟩

theorem removeOne_get (t : LayerTree) (x r : Hash) :
    (t.removeOne x).get r = if r = x then none else t.get r := by
  have hone : (t.removeOne x).layers[r]? = if r = x then none else t.layers[r]? := by
    rw [removeOne, Std.ExtTreeMap.getElem?_erase]
    exact if_congr (Std.compare_eq_iff_eq.trans eq_comm) rfl rfl
  rw [get, hone]
  split
  · rfl
  · rfl

theorem removeAll_lookup (removed : List Hash)
    (hroots : ∀ r dl, t.get r = some (.diff dl) → dl.root = r) (hnodup : (t.lookup item).Nodup) :
    ((removed.foldl removeOne t).lookup item).Sublist (t.lookup item) ∧
      ∀ r, r ∈ (removed.foldl removeOne t).lookup item ↔ r ∈ t.lookup item ∧
        ¬ (r ∈ removed ∧ ∃ dl, t.get r = some (.diff dl) ∧ holds dl.changes item = true) := by
  induction removed generalizing t with
  | nil => exact ⟨.refl _, fun r => by simp⟩
  | cons x removed ih =>
    obtain ⟨hsub, hmem⟩ := removeOne_lookup hroots hnodup x
    have hroots' : ∀ r dl, (t.removeOne x).get r = some (.diff dl) → dl.root = r := by
      intro r dl hget
      rw [removeOne_get] at hget
      split at hget
      · cases hget
      · exact hroots r dl hget
    obtain ⟨hsub', hmem'⟩ := ih hroots' (hsub.nodup hnodup)
    refine ⟨hsub'.trans hsub, fun r => ?_⟩
    rw [foldl_cons, hmem', hmem, removeOne_get, mem_cons]
    by_cases hx : r = x
    · simp [hx]
    · simp [hx]

namespace Capped

variable {flushes : Hash → Bool} {diff old : DiffLayer} {heap' : Heap} {n : Ref}

section

variable (hc : Capped t flushes ref diff old heap' n t')
include hc

theorem parent_iff (h : t.Linked)
    (hsole : ∀ r, t.up r = some old.root → r = diff.root) (w y : Hash) :
    Parent t'.up w y ↔ Parent t.up w y ∧ Below t.up w old.root := by
  have hkeeps : ∀ {w y}, Parent t.up w y → Below t.up w old.root → Parent t'.up w y := by
    intro w y hup hw
    obtain ⟨x, dl, y', hx, hdl, hup', -⟩ := hc.above h hw
    obtain ⟨dl', p', hdl', -, -, hp', hy', -⟩ := hc.link_above h hsole hw hx hdl hup
    have hx' := (hc.layers_eq h).mpr (.inr ⟨hw, hx⟩)
    simp only [Parent, up, hx', bind_some, parentRoot, hdl', hp', map_some, hy']
  refine ⟨fun hup => ?_, fun hup => hkeeps hup.1 hup.2⟩
  obtain ⟨x, hx, hparent⟩ := bind_eq_some_iff.mp hup
  rcases (hc.layers_eq h).mp hx with ⟨rfl, rfl⟩ | ⟨hw, -⟩
  · obtain ⟨fresh, hfresh, -⟩ := hc.heap_base h
    simp only [parentRoot, hfresh] at hparent
    cases hparent
  · obtain ⟨_, _, y', -, -, hup', -⟩ := hc.above h hw
    cases parent_unique hup (hkeeps hup' hw)
    exact ⟨hup', hw⟩

theorem get_iff (h : t.Linked) (hsole : ∀ r, t.up r = some old.root → r = diff.root) {r : Hash} :
    (∃ dl, t'.get r = some (.diff dl) ∧ holds dl.changes item = true) ↔ Below t.up r old.root ∧
        ∃ dl, t.get r = some (.diff dl) ∧ holds dl.changes item = true := by
  have hboth : Below t.up r old.root → ∃ dl dl', t.get r = some (.diff dl) ∧
      t'.get r = some (.diff dl') ∧ dl'.changes = dl.changes := by
    intro hr
    obtain ⟨x, dl, y, hx, hdl, hup, -⟩ := hc.above h hr
    obtain ⟨dl', p', hdl', hchanges, -⟩ := hc.link_above h hsole hr hx hdl hup
    have hx' := (hc.layers_eq h).mpr (.inr ⟨hr, hx⟩)
    exact ⟨dl, dl', by simp only [get, hx, bind_some, hdl],
      by simp only [get, hx', bind_some, hdl'], hchanges⟩
  constructor
  · rintro ⟨dl', hget', hholds⟩
    obtain ⟨x, hx, hdl'⟩ := bind_eq_some_iff.mp hget'
    rcases (hc.layers_eq h).mp hx with ⟨rfl, rfl⟩ | ⟨hr, -⟩
    · obtain ⟨fresh, hfresh, -⟩ := hc.heap_base h
      cases hfresh.symm.trans hdl'
    · obtain ⟨dl, dl₁, hget, hget₁, hchanges⟩ := hboth hr
      cases hget'.symm.trans hget₁
      exact ⟨hr, dl, hget, hchanges ▸ hholds⟩
  · rintro ⟨hr, dl, hget, hholds⟩
    obtain ⟨dl₁, dl', hget₁, hget', hchanges⟩ := hboth hr
    cases hget.symm.trans hget₁
    exact ⟨dl', hget', hchanges ▸ hholds⟩

/-- Before anything is removed, the tree with the new base holds the diff layers of the old one
other than the flattened one, up to where they point. -/
theorem get_relinked (h : t.Linked) {t₁ : LayerTree} (hheap : t₁.heap = t'.heap)
    (hlayers : t₁.layers = t.layers.insert old.root n) {r : Hash} {dl₁ : DiffLayer}
    (hget : t₁.get r = some (.diff dl₁)) : dl₁.root = r := by
  obtain ⟨x, hx, hdl₁⟩ := bind_eq_some_iff.mp hget
  rw [hlayers, Std.ExtTreeMap.getElem?_insert] at hx
  rw [hheap] at hdl₁
  split at hx
  · cases hx
    obtain ⟨fresh, hfresh, -⟩ := hc.heap_base h
    cases hfresh.symm.trans hdl₁
  · obtain ⟨l, hl, hroot, -⟩ := h.roots hx
    obtain ⟨l', hl', hsim⟩ := hc.heaps.similar hl
    cases hdl₁.symm.trans hl'
    exact hsim.rootHash_eq.trans hroot

theorem get_kept {t₁ : LayerTree} (hheap : t₁.heap = t'.heap)
    (hlayers : t₁.layers = t.layers.insert old.root n) {r : Hash} {dl : DiffLayer}
    (hr : r ≠ old.root) (hget : t.get r = some (.diff dl)) :
    ∃ dl₁, t₁.get r = some (.diff dl₁) ∧ dl₁.changes = dl.changes := by
  obtain ⟨x, hx, hdl⟩ := bind_eq_some_iff.mp hget
  obtain ⟨l', hl', hsim⟩ := hc.heaps.similar hdl
  cases l' with
  | disk => exact hsim.elim
  | diff dl' =>
    have hsame : dl' = { dl with parent := dl'.parent } := hsim
    refine ⟨dl', ?_, by rw [hsame]⟩
    rw [get, hlayers, Std.ExtTreeMap.getElem?_insert,
      if_neg (by rw [Std.compare_eq_iff_eq]; exact Ne.symm hr), hx, hheap]
    exact hl'

/-- Apart from the flattened layer, what the removal takes out of a list is what is not on top of
the new base. -/
theorem mem_removed_iff (h : t.Linked) (hi : t.Indexed) {t₁ t₂ : LayerTree}
    (hheap : t₁.heap = t'.heap) (hlayers : t₁.layers = t.layers.insert old.root n)
    (hmem : ∀ r, r ∈ t₂.lookup item ↔ r ∈ t.lookup item ∧
      ¬ (r ∈ doomed (children t'.heap t₁.layers) (height t'.heap) t.baseRoot ∧
        ∃ dl, t₁.get r = some (.diff dl) ∧ holds dl.changes item = true))
    {r : Hash} (hr : r ≠ old.root) :
    r ∈ t₂.lookup item ↔ r ∈ t.lookup item ∧ Below t.up r old.root := by
  rw [hmem]
  refine and_congr_right fun hlisted => ?_
  obtain ⟨dl, hdl, hholds⟩ := hi.listed.mp hlisted
  obtain ⟨dl₁, hdl₁, hchanges⟩ := hc.get_kept hheap hlayers hr hdl
  have hreg : (t.layers[r]?).isSome := by
    obtain ⟨x, hx, -⟩ := bind_eq_some_iff.mp hdl
    rw [hx]
    rfl
  rw [hlayers, hc.mem_doomed h hreg]
  constructor
  · intro hnot
    have hbelow : BelowEq t.up r old.root := by
      by_contra hbelow
      exact hnot ⟨hbelow, dl₁, hdl₁, hchanges ▸ hholds⟩
    rcases belowEq_iff.mp hbelow with he | hbelow
    · exact absurd he.symm hr
    · exact hbelow
  · intro hbelow hnot
    exact hnot.1 hbelow.to_reflTransGen

theorem lookup_spec (h : t.Linked) (hi : t.Indexed) (item : Item) :
    (t'.lookup item).Sublist (t.lookup item) ∧
      ∀ r, r ∈ t'.lookup item ↔ r ∈ t.lookup item ∧ Below t.up r old.root := by
  obtain ⟨t₁, hheap, hlayers, -, hlookup₁, t₂, ht₂, -, -, hlookup⟩ := hc.rebase_eq
  obtain ⟨hsub, hmem⟩ := removeAll_lookup
    (doomed (children t'.heap t₁.layers) (height t'.heap) t.baseRoot)
    (fun r dl hget => hc.get_relinked h hheap hlayers hget) (hlookup₁ ▸ hi.nodup item)
  rw [← ht₂, hlookup₁] at hsub hmem
  have hrest {r : Hash} (hr : r ≠ old.root) := hc.mem_removed_iff h hi hheap hlayers hmem hr
  have hreplaced : t.get old.root = some (.diff old) := by
    simp only [get, hc.parent, bind_some, hc.replaced_at]
  rw [hlookup, removeLayer]
  split
  · refine ⟨erase_sublist.trans hsub, fun r => ?_⟩
    rw [(hsub.nodup (hi.nodup item)).mem_erase_iff]
    by_cases hr : r = old.root
    · subst hr
      exact ⟨fun hr => absurd rfl hr.1, fun hr => absurd hr.2 (h.not_below_self _)⟩
    · rw [hrest hr]
      exact ⟨fun hx => hx.2, fun hx => ⟨hr, hx⟩⟩
  · rename_i hholds
    refine ⟨hsub, fun r => ?_⟩
    by_cases hr : r = old.root
    · subst hr
      refine ⟨fun hr => ?_, fun hr => absurd hr.2 (h.not_below_self _)⟩
      obtain ⟨dl, hdl, htrue⟩ := hi.listed.mp (hsub.subset hr)
      cases hreplaced.symm.trans hdl
      exact absurd htrue hholds
    · exact hrest hr

theorem indexed (h : t.Linked) (hi : t.Indexed)
    (hsole : ∀ r, t.up r = some old.root → r = diff.root) : t'.Indexed := by
  have hbelow : ∀ {z a}, Below t'.up z a ↔ Below t.up z a ∧ BelowEq t.up a old.root := by
    intro z a
    exact below_pruned_iff (hc.parent_iff h hsole)
  refine ⟨?_, ?_, ?_, ?_⟩
  · intro x a
    obtain ⟨t₁, -, hlayers, hdesc₁, -, t₂, ht₂, -, hdesc, -⟩ := hc.rebase_eq
    rw [hdesc, ht₂, removeAll_descendants, hdesc₁, hlayers, hbelow, ← hi.descendants]
    split
    · rename_i hdoomed
      refine ⟨fun hx => absurd hx not_mem_nil, fun ⟨hx, ha⟩ => ?_⟩
      obtain ⟨w, hw, hwa⟩ := below_iff_parent.mp (hi.descendants.mp hx)
      obtain ⟨_, _, _, -, -, -, -, -, hreg, -⟩ := h.of_up hw
      have hareg := h.registered_of_belowEq (by rw [hreg]; rfl) hwa
      exact absurd ha ((hc.mem_doomed h hareg).mp hdoomed)
    · rename_i hkept
      refine ⟨fun hx => ⟨hx, ?_⟩, fun hx => hx.1⟩
      obtain ⟨w, hw, hwa⟩ := below_iff_parent.mp (hi.descendants.mp hx)
      obtain ⟨_, _, _, -, -, -, -, -, hreg, -⟩ := h.of_up hw
      have hareg := h.registered_of_belowEq (by rw [hreg]; rfl) hwa
      exact not_not.mp ((hc.mem_doomed h hareg).not.mp hkept)
  · intro item r
    rw [(hc.lookup_spec h hi item).2, hi.listed, hc.get_iff h hsole, and_comm]
  · intro item
    exact (hc.lookup_spec h hi item).1.nodup (hi.nodup item)
  · intro item
    refine ((hi.ordered item).sublist (hc.lookup_spec h hi item).1).imp ?_
    intro a b hab hafter
    exact hab (hbelow.mp hafter).1

end

end Capped

/-! ## Runs -/

/-- The zero hash stands for an unknown state, so no layer may have it as its root. -/
def Steady (t : LayerTree) (op : Op) : Prop :=
  t.Calm op ∧ ∀ root parentRoot block changes, op = .add root parentRoot block changes →
    root ≠ FixedBytes.zero 32

theorem Indexed.step (h : t.Linked) (hi : t.Indexed) {op : Op} (hcalm : t.Calm op) :
    (t.step op).Indexed := by
  have hstep := h.stepped op
  generalize t.step op = t' at hstep ⊢
  cases hstep with
  | stored => exact hi.of_db _
  | added ha => exact ha.indexed h hi
  | flattened hf =>
    obtain ⟨_, _, _, _, _, _, _, _, -, -, -, hspec, rfl⟩ := hf.registered
    obtain ⟨fresh, hat, -⟩ := hspec.fresh
    exact indexed_of_single hat
  | capped hpos htop hpoint hc => exact hc.indexed h hi (hcalm hpos _ _ _ _ htop hpoint)

theorem unregistered_step (h : t.Linked) {op : Op} {r : Hash}
    (hop : ∀ parentRoot block changes, op ≠ .add r parentRoot block changes)
    (hr : t.layers[r]? = none) : (t.step op).layers[r]? = none := by
  have hstep := h.stepped op
  generalize t.step op = t' at hstep ⊢
  cases hstep with
  | stored => exact hr
  | @added root parentRoot block changes _ _ _ ha =>
    have hne : r ≠ root := by
      rintro rfl
      exact hop parentRoot block changes rfl
    rw [ha.layers_eq, if_neg hne]
    exact hr
  | flattened hf =>
    obtain ⟨ref, _, _, _, _, _, _, n, href, -, -, -, rfl⟩ := hf.registered
    rw [Std.ExtTreeMap.getElem?_insert, if_neg]
    · simp
    · rw [Std.compare_eq_iff_eq]
      rintro rfl
      cases href.symm.trans hr
  | capped _ _ _ hc =>
    refine eq_none_iff_forall_ne_some.mpr fun x hx => ?_
    rcases (hc.layers_eq h).mp hx with ⟨rfl, -⟩ | ⟨-, hx⟩
    · cases hr.symm.trans hc.parent
    · cases hr.symm.trans hx

/-- All that is known of the tree in every reached state. -/
structure Sound (t : LayerTree) : Prop where
  linked : t.Linked
  indexed : t.Indexed
  nonzero : t.layers[FixedBytes.zero 32]? = none

theorem Reached.sound {head : DiskLayer} {db : Store} (hfresh : Fresh head db)
    (hhead : head.root ≠ FixedBytes.zero 32) (h : Reached Steady head db t) : t.Sound := by
  obtain ⟨H, hrun⟩ := h
  induction hrun with
  | start =>
    refine ⟨newLayerTree_linked hfresh.live hfresh.id_eq hfresh.coherent, ?_, ?_⟩
    · exact indexed_of_single rfl
    · rw [newLayerTree, Std.ExtTreeMap.getElem?_insert, if_neg]
      · simp
      · rw [Std.compare_eq_iff_eq]
        exact hhead
  | next _ hstep ih =>
    obtain ⟨⟨hcalm, hadd⟩, rfl⟩ := hstep
    refine ⟨ih.linked.step hcalm, ih.indexed.step ih.linked hcalm, ?_⟩
    refine unregistered_step ih.linked ?_ ih.nonzero
    rintro parentRoot block changes rfl
    exact hadd _ _ _ _ rfl rfl

/-! ## The tip -/

/-- The layer's own data gives the value; the disk layer may have to answer that the generator has
not passed the item yet. -/
def Gives (t : LayerTree) (item : Item) (l : Layer) (answer : Except Error Bytes) : Prop :=
  match l with
  | .disk dl => dl.read t.db item = answer
  | .diff dl => ∃ blob, dl.changes.find item = some blob ∧ answer = .ok blob

theorem Linked.read_of_nearest (h : t.Linked) {state r : Hash} (hbelow : BelowEq t.up state r)
    (hpassed : ∀ u, BelowEq t.up state u → Below t.up u r →
      ∀ dl, t.get u = some (.diff dl) → dl.changes.find item = none) :
    t.read item state = t.read item r := by
  induction hbelow using ReflTransGen.head_induction_on with
  | refl => rfl
  | @head state y hup hy ih =>
    obtain ⟨ref, dl, p, href, hdl, -⟩ := h.of_up hup
    have hnone := hpassed state .refl (TransGen.head' hup hy) dl
      (by simp only [get, href, bind_some, hdl])
    rw [h.read_diff href hdl hup, hnone]
    exact ih fun u hu => hpassed u (.head hup hu)

namespace Sound

variable {state : Hash}

theorem isDescendant_iff (hs : t.Sound) {r : Hash} :
    (r == state || t.isDescendant state r) = true ↔ BelowEq t.up state r := by
  rw [Bool.or_eq_true, beq_iff_eq, isDescendant, contains_iff_mem, hs.indexed.descendants,
    belowEq_iff]

theorem tip_known (hs : t.Sound) (hflat : item.isFlat = true) (hstate : (t.layers[state]?).isSome) :
    ∃ l, t.lookupTip (Lookup.tip (t.lookup item) t.isDescendant state t.baseRoot) = .ok l ∧
      t.Gives item l (t.read item state) := by
  have h := hs.linked
  obtain ⟨x, hx⟩ := isSome_iff_exists.mp hstate
  have hanswer : ∀ {r : Hash} {l : Layer}, t.get r = some l → t.lookupTip r = .ok l := by
    intro r l hget
    have hr : r ≠ FixedBytes.zero 32 := by
      rintro rfl
      rw [get, hs.nonzero] at hget
      cases hget
    simp only [lookupTip, if_neg hr, hget]
  have hholds : ∀ {u : Hash} {dl : DiffLayer}, t.get u = some (.diff dl) →
      u ∉ t.lookup item → dl.changes.find item = none := by
    intro u dl hget hnot
    by_contra hsome
    refine hnot (hs.indexed.listed.mpr ⟨dl, hget, ?_⟩)
    rw [holds, hflat, Bool.true_and]
    exact isSome_iff_ne_none.mpr hsome
  unfold Lookup.tip
  cases hfind : (t.lookup item).reverse.find? fun r => r == state || t.isDescendant state r with
  | some r =>
    obtain ⟨hmem, hbelow, hnearest⟩ :=
      nearest_of_find (hs.indexed.ordered item) (fun u => hs.isDescendant_iff) hfind
    obtain ⟨dl, hget, htrue⟩ := hs.indexed.listed.mp hmem
    obtain ⟨blob, hblob⟩ : ∃ blob, dl.changes.find item = some blob := by
      rw [holds, hflat, Bool.true_and] at htrue
      exact isSome_iff_exists.mp htrue
    refine ⟨.diff dl, hanswer hget, blob, hblob, ?_⟩
    rw [h.read_of_nearest hbelow]
    · obtain ⟨ref, href, hdl⟩ := bind_eq_some_iff.mp hget
      obtain ⟨p, -, -, -, hup⟩ := h.parent_of_diff href hdl
      rw [h.read_diff href hdl hup, hblob]
    · intro u hu hur dlu hgetu
      refine hholds hgetu fun hlisted => ?_
      -- a listed layer below the found one would have been found first
      have hru := hnearest u hlisted hu
      exact h.not_below_self u (hur.trans_left hru)
  | none =>
    obtain ⟨base, hbase, hlive, hreg, -⟩ := h.base
    have hroot := h.baseRoot_eq hbase
    have hbelow := h.belowEq_baseRoot hx
    rw [if_pos (hs.isDescendant_iff.mpr hbelow)]
    have hget : t.get t.baseRoot = some (.disk base) := by
      simp only [get, hroot, hreg, bind_some, hbase]
    refine ⟨.disk base, hanswer hget, ?_⟩
    rw [h.read_of_nearest hbelow, hroot]
    · exact (base.read_eq_value h.coherent hlive item).trans (h.read_base hbase item).symm
    · intro u hu _ dl hget
      refine hholds hget fun hlisted => ?_
      have hnot := find?_eq_none.mp hfind u (by simpa using hlisted)
      exact hnot (hs.isDescendant_iff.mpr hu)

theorem tip_unknown (hs : t.Sound) (hstate : t.layers[state]? = none) :
    t.lookupTip (Lookup.tip (t.lookup item) t.isDescendant state t.baseRoot) =
      .error .snapshotStale := by
  have hno : ∀ {r : Hash}, BelowEq t.up state r → r = state := by
    intro r hr
    rcases belowEq_iff.mp hr with he | hr
    · exact he
    · obtain ⟨y, hy, -⟩ := below_iff_parent.mp hr
      rw [Parent, up, hstate] at hy
      cases hy
  have hmiss : ∀ {r : Hash}, (t.layers[r]?).isSome →
      ¬ (r == state || t.isDescendant state r) = true := by
    intro r hr htrue
    rw [hno (hs.isDescendant_iff.mp htrue), hstate] at hr
    cases hr
  have hfind : (t.lookup item).reverse.find? (fun r => r == state || t.isDescendant state r) =
      none := by
    refine find?_eq_none.mpr fun r hr => hmiss ?_
    obtain ⟨dl, hget, -⟩ := hs.indexed.listed.mp (mem_reverse.mp hr)
    obtain ⟨x, hx, -⟩ := bind_eq_some_iff.mp hget
    rw [hx]
    rfl
  obtain ⟨base, hbase, -, hreg, -⟩ := hs.linked.base
  have hbase' := hmiss (r := t.baseRoot) (by rw [hs.linked.baseRoot_eq hbase, hreg]; rfl)
  simp only [Lookup.tip, hfind, if_neg hbase', lookupTip, if_true]

end Sound

/-- What a lookup answers: the layer at which the walk along the parents ends, and a stale state
exactly if the root is not in the tree. -/
def Exact (t : LayerTree) (item : Item) (state : Hash) (answer : Except Error Layer) : Prop :=
  ((t.layers[state]?).isSome → t.read item state ≠ .error .snapshotStale ∧
    ∃ l, answer = .ok l ∧ t.Gives item l (t.read item state)) ∧
  (answer = .error .snapshotStale ↔ t.layers[state]? = none)

theorem Sound.exact (hs : t.Sound) (hflat : item.isFlat = true) (state : Hash) : t.Exact item state
      (t.lookupTip (Lookup.tip (t.lookup item) t.isDescendant state t.baseRoot)) := by
  refine ⟨fun hstate => ⟨hs.linked.read_ne_stale hstate, hs.tip_known hflat hstate⟩,
    fun hstale => ?_, hs.tip_unknown⟩
  by_contra hsome
  obtain ⟨l, hok, -⟩ := hs.tip_known hflat (isSome_iff_ne_none.mpr hsome)
  cases hok.symm.trans hstale

/-- The lookup agrees with the walk, in every tree that is reached by caps which flatten a layer
with one child and by layers whose roots are not zero. -/
theorem lookup_exact {head : DiskLayer} {db : Store} (hfresh : Fresh head db)
    (hhead : head.root ≠ FixedBytes.zero 32) (hreached : Reached Steady head db t)
    (accountHash slotHash state : Hash) :
    t.Exact (.account accountHash) state (t.lookupAccount accountHash state) ∧
      t.Exact (.slot accountHash slotHash) state (t.lookupStorage accountHash slotHash state) :=
  have hs := hreached.sound hfresh hhead
  ⟨hs.exact rfl state, hs.exact rfl state⟩

/-- A layer whose root is not zero. -/
theorem steady_add {t : LayerTree} {n : UInt8} (hn : sampleHash n ≠ FixedBytes.zero 32)
    (parentRoot : Hash) (block : ℕ) (changes : Changes) :
    Steady t (.add (sampleHash n) parentRoot block changes) := by
  refine ⟨trivial, fun root _ _ _ heq => ?_⟩
  cases heq
  exact hn

/-- The fork above the layer 3 after the layer 2 is flattened and its buffer is frozen. -/
def cappedCrown : LayerTree := crownTree.step (.cap (fun _ => true) (sampleHash 4) 2)

theorem cappedCrown_reached : Reached Steady sampleDisk (sampleStore false) cappedCrown :=
  ((((Reached.start.step (.add ..) (steady_add (by decide) _ _ _)).step (.add ..)
    (steady_add (by decide) _ _ _)).step (.add ..) (steady_add (by decide) _ _ _)).step (.add ..)
    (steady_add (by decide) _ _ _)).step (.cap (fun _ => true) (sampleHash 4) 2)
    ⟨fun _ => crownTree_soleChild, nofun⟩

/-- The account 9 is in the frozen buffer below the layer 4 and in the layer 5 itself; the account 8
is nowhere, and the generator has not come to it. -/
theorem lookup_exact_crown :
    cappedCrown.read (.account (sampleHash 9)) (sampleHash 4) = .ok [8] ∧
    cappedCrown.Exact (.account (sampleHash 9)) (sampleHash 4)
      (cappedCrown.lookupAccount (sampleHash 9) (sampleHash 4)) ∧
    cappedCrown.read (.account (sampleHash 9)) (sampleHash 5) = .ok [7] ∧
    cappedCrown.Exact (.account (sampleHash 9)) (sampleHash 5)
      (cappedCrown.lookupAccount (sampleHash 9) (sampleHash 5)) ∧
    cappedCrown.Exact (.account (sampleHash 8)) (sampleHash 5)
      (cappedCrown.lookupAccount (sampleHash 8) (sampleHash 5)) := by
  have hexact (account state : Hash) :=
    (lookup_exact sample_fresh (by decide) cappedCrown_reached account account state).1
  exact ⟨by decide, hexact _ _, by decide, hexact _ _, hexact _ _⟩

/-! ### A root that comes back -/

/-- The layer 4 sets the account to 8. After the layer 2 is flattened below 3, the layer 5 comes on
top of 4, and the root of the former base comes back on top of 3, with the account set to 7. -/
def returnedTree : LayerTree :=
  ((((lineTree false).step (.add (sampleHash 4) (sampleHash 2) 2 (setAccount 9 8))).step
    (.cap (fun _ => false) (sampleHash 3) 1)).step
    (.add (sampleHash 5) (sampleHash 4) 3 noChanges)).step
    (.add (sampleHash 1) (sampleHash 3) 3 (setAccount 9 7))

/-- The walk from the layer 5 ends in the layer 4, the lookup answers with the layer on top of 3.
And a layer with the zero root is reported as stale although it is the base of the tree. -/
theorem lookup_other_branch :
    (returnedTree.read (.account (sampleHash 9)) (sampleHash 5) = .ok [8] ∧
      ∃ l, returnedTree.lookupAccount (sampleHash 9) (sampleHash 5) = .ok l ∧
        l.rootHash = sampleHash 1 ∧ returnedTree.Gives (.account (sampleHash 9)) l (.ok [7])) ∧
    (newLayerTree { sampleDisk with root := FixedBytes.zero 32 } (sampleStore false)).lookupAccount
      (sampleHash 9) (FixedBytes.zero 32) = .error .snapshotStale := by
  refine ⟨⟨by decide, ?_⟩, rfl⟩
  exact ⟨_, rfl, rfl, _, rfl, rfl⟩

end LayerTree

end ChilizChain.PathDb
