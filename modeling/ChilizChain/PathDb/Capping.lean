import ChilizChain.Lib.Run
import ChilizChain.PathDb.Linked

/-! Capping the layer tree.

As long as every cap flattens a layer that is the parent of one layer only, the tree stays linked
and a cap changes no read. A second layer on top of the flattened one keeps its pointer to the
persisted object, below which everything is stale. -/

namespace ChilizChain.PathDb

open Ancestry Relation List Option Std.ExtTreeMap Layer Function Nat

namespace LayerTree

variable {t : LayerTree} {root : Hash} {ref : Ref} {dl : DiffLayer} {item : Item}

/-! ## Where a cap flattens -/

variable {n : ℕ}

theorem Linked.dive (h : t.Linked) {top : Ref} (htop : t.layers[root]? = some top)
    (hdive : dive t.heap n top = some ref) : ∃ r : Hash, t.layers[r]? = some ref := by
  induction n generalizing root top with
  | zero =>
    cases hdive
    exact ⟨root, htop⟩
  | succ n ih =>
    unfold PathDb.dive at hdive
    split at hdive
    · rename_i dl hdl
      obtain ⟨p, hp, hreg, -⟩ := h.parents htop hdl
      rw [hp] at hdive
      cases p with
      | disk => cases hdive
      | diff => exact ih hreg hdive
    · cases hdive

variable {heap : Heap}

theorem capPoint_eq_some {layers : ℕ} {top : Ref} {diff prev : DiffLayer}
    (h : capPoint heap layers top = some (ref, diff, prev)) :
    dive heap (layers - 1) top = some ref ∧ heap[ref]? = some (.diff diff) ∧
      heap[diff.parent]? = some (.diff prev) := by
  unfold capPoint at h
  split at h
  · cases h
  · rename_i ref' hdive
    split at h
    · rename_i diff' hdiff
      split at h
      · rename_i prev' hreplaced
        cases h
        exact ⟨hdive, hdiff, hreplaced⟩
      · cases h
    · cases h

/-- A cap that flattens: `diff` stays and `replaced` below it is persisted. -/
structure Capped (t : LayerTree) (flushes : Hash → Bool) (ref : Ref) (diff replaced : DiffLayer)
    (heap' : Heap) (n : Ref) (t' : LayerTree) : Prop where
  registered : t.layers[diff.root]? = some ref
  diff_at : t.heap[ref]? = some (.diff diff)
  replaced_at : t.heap[diff.parent]? = some (.diff replaced)
  parent : t.layers[replaced.root]? = some diff.parent
  id_eq : diff.id = replaced.id + 1
  persisted : ∃ path base db', Chain t.heap diff.parent ((diff.parent, replaced) :: path) t.base ∧
    t.heap[t.base]? = some (.disk base) ∧
    Persisted t.heap t.db (t.base :: path.map Prod.fst)
      (buffersOver t.db.noAsyncFlush flushes ((diff.parent, replaced) :: path) base)
      (valueOver ((diff.parent, replaced) :: path) base t.db) diff.parent replaced heap' db' n ∧
    t' = rebase { t with heap := heap'.set ref (.diff { diff with parent := n }), db := db' }
      t.baseRoot replaced n

/-- After the layers from `ref` down are persisted, the buffers still have the value of an item that
one of these layers or the buffers had. -/
def Retains (t : LayerTree) (flushes : Hash → Bool) (ref : Ref) (item : Item) : Prop :=
  ∀ path base, Chain t.heap ref path t.base → t.heap[t.base]? = some (.disk base) →
    DiskLayer.inBuffers (buffersOver t.db.noAsyncFlush flushes path base) item =
      (found path item).or (base.memory item)

/-- A full flattening: the top layer is persisted, and nothing else stays. -/
structure Flattened (t : LayerTree) (root : Hash) (t' : LayerTree) : Prop where
  registered : ∃ ref top path base buffers heap' db' n, t.layers[root]? = some ref ∧
    Chain t.heap ref ((ref, top) :: path) t.base ∧ t.heap[t.base]? = some (.disk base) ∧
    Persisted t.heap t.db (t.base :: path.map Prod.fst) buffers
      (valueOver ((ref, top) :: path) base t.db) ref top heap' db' n ∧
    t' = ⟨heap', n, Std.ExtTreeMap.empty.insert root n, fun _ => [], fun _ => [], db'⟩

theorem Linked.persist (h : t.Linked) (flushes : Hash → Bool) (href : t.layers[root]? = some ref)
    (hdl : t.heap[ref]? = some (.diff dl)) :
    ∃ path base heap' db' n, Chain t.heap ref ((ref, dl) :: path) t.base ∧
      t.heap[t.base]? = some (.disk base) ∧
      PathDb.persist flushes (dl.id + 1) t.heap t.db ref = .ok (heap', db', n) ∧
      Persisted t.heap t.db (t.base :: path.map Prod.fst)
        (buffersOver t.db.noAsyncFlush flushes ((ref, dl) :: path) base)
        (valueOver ((ref, dl) :: path) base t.db) ref dl heap' db' n := by
  obtain ⟨base, hbase, -, -, hid⟩ := h.base
  obtain ⟨whole, hchain⟩ := h.chain href
  cases hchain with
  | disk hdisk => cases hdisk.symm.trans hdl
  | @diff _ _ dl' p path hdl' hp hpid below =>
    cases hdl.symm.trans hdl'
    have hchain : Chain t.heap ref ((ref, dl) :: path) t.base := .diff hdl hp hpid below
    have hfuel : path.length < dl.id + 1 := by
      have := hchain.stateID_eq hbase hdl
      simp only [stateID, length_cons] at this
      omega
    obtain ⟨heap', db', n, hrun, hspec⟩ :=
      persist_chain flushes hchain hbase hid h.coherent hfuel
    exact ⟨path, base, heap', db', n, hchain, hbase, hrun, hspec⟩

theorem cap_cases (h : t.Linked) {flushes : Hash → Bool} {layers : ℕ} {t' : LayerTree}
    (hcap : t.cap flushes root layers = .ok t') : (layers = 0 ∧ Flattened t root t') ∨
      (0 < layers ∧ ∃ top, t.layers[root]? = some top ∧
        ((capPoint t.heap layers top = none ∧ t' = t) ∨
          ∃ ref diff prev heap' n, capPoint t.heap layers top = some (ref, diff, prev) ∧
            Capped t flushes ref diff prev heap' n t')) := by
  unfold cap at hcap
  cases htop : t.layers[root]? with
  | none =>
    rw [htop] at hcap
    cases hcap
  | some top =>
    simp only [htop] at hcap
    obtain ⟨l, hl, hroot, -⟩ := h.roots htop
    cases l with
    | disk dl =>
      simp only [hl] at hcap
      cases hcap
    | diff dl =>
      simp only [hl] at hcap
      split at hcap
      · rename_i hzero
        obtain ⟨path, base, heap', db', n, hchain, hbase, hrun, hspec⟩ :=
          h.persist (fun _ => true) htop hl
        rw [hrun] at hcap
        cases hcap
        exact .inl ⟨hzero, _, _, _, _, _, _, _, _, htop, hchain, hbase, hspec, rfl⟩
      · rename_i hpos
        refine .inr ⟨pos_of_ne_zero hpos, top, rfl, ?_⟩
        cases hpoint : capPoint t.heap layers top with
        | none =>
          rw [hpoint] at hcap
          cases hcap
          exact .inl ⟨rfl, rfl⟩
        | some point =>
          obtain ⟨ref, diff, prev⟩ := point
          obtain ⟨hdive, hdiff, hreplaced⟩ := capPoint_eq_some hpoint
          obtain ⟨r, hr⟩ := h.dive htop hdive
          obtain rfl : diff.root = r := h.root_eq hr hdiff
          obtain ⟨p, hp, hreg, hid⟩ := h.parents hr hdiff
          cases hreplaced.symm.trans hp
          obtain ⟨path, base, heap', db', n, hchain, hbase, hrun, hspec⟩ :=
            h.persist flushes hreg hreplaced
          simp only [hpoint, hrun] at hcap
          cases hcap
          exact .inr ⟨ref, diff, prev, heap', n, rfl,
            ⟨hr, hdiff, hreplaced, hreg, hid, path, base, db', hchain, hbase, hspec, rfl⟩⟩

/-! ## What is removed -/

theorem mem_children {layers : Std.ExtTreeMap Hash Ref compare} {child : Hash} :
    child ∈ children heap layers root ↔ (layers[child]?).bind (parentRoot heap) = some root := by
  simp only [children, mem_filterMap, Prod.exists, bind_eq_some_iff]
  constructor
  · rintro ⟨c, ref, hmem, hif⟩
    split at hif
    · rename_i hparent
      cases hif
      exact ⟨ref, mem_toList_iff_getElem?_eq_some.mp hmem, hparent⟩
    · cases hif
  · rintro ⟨ref, href, hparent⟩
    exact ⟨child, ref, mem_toList_iff_getElem?_eq_some.mpr href, if_pos hparent⟩

theorem belowEq_of_mem_doomed {kids : Hash → List Hash} {up : Hash → Option Hash}
    (hkids : ∀ {c r}, c ∈ kids r → up c = some r) {x r : Hash} (hx : x ∈ doomed kids n r) :
    BelowEq up x r := by
  induction n generalizing r with
  | zero =>
    obtain rfl : x = r := by simpa [doomed] using hx
    exact .refl
  | succ n ih =>
    rcases mem_cons.mp hx with rfl | hx
    · exact .refl
    · obtain ⟨c, hc, hx⟩ := mem_flatMap.mp hx
      exact (ih hx).tail (hkids hc)

/-- Enough fuel reaches everything: ranks grow by one with each child. -/
theorem mem_doomed_of_belowEq {kids : Hash → List Hash} {up : Hash → Option Hash}
    (hkids : ∀ {c r}, up c = some r → c ∈ kids r) (rank : Hash → ℕ)
    (hrank : ∀ {c r}, up c = some r → rank c = rank r + 1) {x r : Hash} (hx : BelowEq up x r)
    (hn : rank x ≤ rank r + n) : x ∈ doomed kids n r := by
  induction n generalizing r with
  | zero =>
    rcases belowEq_iff.mp hx with rfl | hx
    · simp [doomed]
    · have hlt : ∀ a b, Parent up a b → rank b < rank a := by
        intro a b hab
        rw [hrank hab]
        exact Nat.lt_succ_self _
      have := rank_lt_of_below hlt hx
      omega
  | succ n ih =>
    rcases ReflTransGen.cases_tail hx with rfl | ⟨c, hxc, hc⟩
    · exact mem_cons_self
    · refine mem_cons_of_mem _ (mem_flatMap.mpr ⟨c, hkids hc, ih hxc ?_⟩)
      rw [hrank hc]
      omega

theorem stateID_le_height {x : Ref} {l : Layer} (h : heap[x]? = some l) :
    l.stateID ≤ height heap := by
  have hmem : l.stateID ∈ heap.map stateID :=
    mem_map_of_mem (mem_of_getElem? h)
  unfold height
  generalize heap.map stateID = ids at hmem
  induction ids with
  | nil => cases hmem
  | cons id ids ih =>
    rcases mem_cons.mp hmem with rfl | hmem
    · exact le_max_left ..
    · exact (ih hmem).trans (le_max_right ..)

theorem removeAll_layers (removed : List Hash) (t : LayerTree) (r : Hash) :
    (removed.foldl removeOne t).layers[r]? = if r ∈ removed then none else t.layers[r]? := by
  induction removed generalizing t with
  | nil => rfl
  | cons x removed ih =>
    rw [foldl_cons, ih]
    have hone : (t.removeOne x).layers[r]? = if r = x then none else t.layers[r]? := by
      rw [removeOne, getElem?_erase]
      exact if_congr (Std.compare_eq_iff_eq.trans eq_comm) rfl rfl
    rw [hone]
    simp only [mem_cons]
    by_cases hx : r = x
    · rw [if_pos hx, ite_self, if_pos (Or.inl hx)]
    · rw [if_neg hx]
      exact if_congr (by simp [hx]) rfl rfl

theorem removeAll_heap (removed : List Hash) (t : LayerTree) :
    (removed.foldl removeOne t).heap = t.heap ∧ (removed.foldl removeOne t).db = t.db := by
  induction removed generalizing t with
  | nil => exact ⟨rfl, rfl⟩
  | cons x removed ih => exact ih (t.removeOne x)

/-! ## The tree after a cap -/

namespace Capped

variable {flushes : Hash → Bool} {diff prev : DiffLayer} {heap' : Heap} {n : Ref}
  {t' : LayerTree} {r : Hash}

theorem heap_eq (hc : Capped t flushes ref diff prev heap' n t') :
    t'.heap = heap'.set ref (.diff { diff with parent := n }) := by
  obtain ⟨path, base, db', -, -, -, rfl⟩ := hc.persisted
  exact (removeAll_heap _ _).1

variable {x : Ref}

section

variable (hc : Capped t flushes ref diff prev heap' n t')
include hc

theorem ref_frame {l : Layer}
    (hx : t.heap[x]? = some l) (hid : prev.id < l.stateID) : heap'[x]? = some l := by
  obtain ⟨path, base, db', hchain, hbase, hspec, -⟩ := hc.persisted
  obtain ⟨hxb, hxpath⟩ := hchain.notMem_of_lt hc.replaced_at hx hid
  simp only [map_cons, mem_cons, not_or] at hxpath
  rw [hspec.frame x (List.getElem?_eq_some_iff.mp hx).1 hxpath.1 ?_, hx]
  rw [mem_cons, not_or]
  exact ⟨hxb, hxpath.2⟩

theorem heap_above {l : Layer}
    (hx : t.heap[x]? = some l) (hid : prev.id < l.stateID) (hne : x ≠ ref) :
    t'.heap[x]? = some l := by
  rw [hc.heap_eq, getElem?_set_ne hne.symm]
  exact hc.ref_frame hx hid

theorem heap_diff :
    t'.heap[ref]? = some (.diff { diff with parent := n }) := by
  have hat : heap'[ref]? = some (.diff diff) := by
    refine hc.ref_frame hc.diff_at ?_
    rw [stateID, hc.id_eq]
    exact Nat.lt_succ_self _
  rw [hc.heap_eq]
  exact getElem?_set_self (List.getElem?_eq_some_iff.mp hat).1

theorem n_ne_ref : n ≠ ref := by
  obtain ⟨path, base, db', -, -, hspec, -⟩ := hc.persisted
  exact ne_of_gt (lt_of_lt_of_le (List.getElem?_eq_some_iff.mp hc.diff_at).1 hspec.new)

theorem heap_base (h : t.Linked) :
    ∃ fresh, t'.heap[n]? = some (.disk fresh) ∧ fresh.root = prev.root ∧
      fresh.id = t'.db.histories ∧ fresh.id = prev.id ∧ fresh.stale = false ∧ t'.db.Coherent ∧
      ∀ item, fresh.value t'.db item = t.read item prev.root ↔
        (item.covered t.db.genMarker = false → Retains t flushes diff.parent item) := by
  obtain ⟨path, base, db', hchain, hbase, hspec, heq⟩ := hc.persisted
  obtain ⟨fresh, hat, hroot, hid, hlive, hbuffers, hvalue⟩ := hspec.fresh
  have hdb : t'.db = db' := by
    rw [heq]
    exact (removeAll_heap _ _).2
  refine ⟨fresh, ?_, hroot, ?_, hid, hlive, ?_, ?_⟩
  · rw [hc.heap_eq, getElem?_set_ne hc.n_ne_ref.symm, hat]
  · rw [hdb, hspec.histories, hid]
  · rw [hdb]
    exact hspec.coherent
  · intro item
    rw [hdb, h.read_chain hc.parent hchain hbase]
    cases hitem : item.covered t.db.genMarker with
    | true => exact iff_of_true (hvalue item hitem) (fun hnot => nomatch hnot)
    | false =>
      rw [value_eq_valueOver_iff hspec.genMarker hitem, DiskLayer.memory, hbuffers]
      refine ⟨fun hkept _ path' base' hchain' hbase' => ?_, fun h => h rfl _ _ hchain hbase⟩
      cases hbase.symm.trans hbase'
      rwa [hchain.unique hchain']

theorem heaps : Extends t.heap t'.heap := by
  obtain ⟨path, base, db', -, -, hspec, -⟩ := hc.persisted
  obtain ⟨fresh, hat, hroot, -⟩ := hspec.fresh
  have hdiff : heap'[ref]? = some (.diff diff) := by
    refine hc.ref_frame hc.diff_at ?_
    rw [stateID, hc.id_eq]
    exact Nat.lt_succ_self _
  obtain ⟨q, hq, hsim⟩ := hspec.heaps.similar hc.replaced_at
  rw [hc.heap_eq]
  refine hspec.heaps.trans (extends_relink hdiff hq hat ?_)
  rw [hsim.rootHash_eq]
  exact hroot

theorem up_eq (h : t.Linked) (r : Hash) :
    ((t.layers.insert prev.root n)[r]?).bind (parentRoot t'.heap) =
      update t.up prev.root none r := by
  obtain ⟨fresh, hfresh, -⟩ := hc.heap_base h
  rw [Std.ExtTreeMap.getElem?_insert]
  by_cases hr : r = prev.root
  · subst hr
    rw [if_pos (Std.compare_eq_iff_eq.mpr rfl), update_self, bind_some, parentRoot, hfresh]
  · rw [if_neg (by rw [Std.compare_eq_iff_eq]; exact Ne.symm hr), update_of_ne hr, up]
    cases hx : t.layers[r]? with
    | none => rfl
    | some x =>
      obtain ⟨l, hl, -, -⟩ := h.roots hx
      cases l with
      | disk dl =>
        obtain ⟨l', hl', hsim⟩ := hc.heaps.similar hl
        cases l' with
        | diff => exact hsim.elim
        | disk => simp only [bind_some, parentRoot, hl, hl']
      | diff dl =>
        obtain ⟨p, hp, -, -⟩ := h.parents hx hl
        simp only [bind_some, hc.heaps.parentRoot hl hp]
        simp only [parentRoot, hl, hp, map_some]

theorem rank_replaced : Linked.rank t prev.root = prev.id := by
  simp only [Linked.rank, get, hc.parent, bind_some, hc.replaced_at, elim_some, stateID]

theorem ne_baseRoot (h : t.Linked) : prev.root ≠ t.baseRoot := by
  intro he
  have hup := h.up_baseRoot
  obtain ⟨p, -, -, -, hup'⟩ := h.parent_of_diff hc.parent hc.replaced_at
  rw [he, hup] at hup'
  cases hup'

theorem mem_doomed (h : t.Linked) (hr : (t.layers[r]?).isSome) :
    r ∈ doomed (children t'.heap (t.layers.insert prev.root n)) (height t'.heap) t.baseRoot ↔
      ¬ BelowEq t.up r prev.root := by
  obtain ⟨x, hx⟩ := isSome_iff_exists.mp hr
  rw [← belowEq_cut_iff h.up_baseRoot (hc.ne_baseRoot h) (h.belowEq_baseRoot hx)]
  have hcut : ∀ {c s : Hash}, update t.up prev.root none c = some s →
      t.up c = some s := by
    intro c s hcs
    by_cases hcr : c = prev.root
    · rw [hcr, update_self] at hcs
      cases hcs
    · rwa [update_of_ne hcr] at hcs
  constructor
  · intro hmem
    refine belowEq_of_mem_doomed ?_ hmem
    intro c s hcs
    rw [← hc.up_eq h]
    exact mem_children.mp hcs
  · intro hbelow
    refine mem_doomed_of_belowEq ?_ (Linked.rank t) ?_ hbelow ?_
    · intro c s hcs
      exact mem_children.mpr ((hc.up_eq h c).trans hcs)
    · intro c s hcs
      exact h.rank_of_up (hcut hcs)
    · obtain ⟨l, hl, hroot, hdisk⟩ := h.roots hx
      cases l with
      | disk dl =>
        have hsame : r = t.baseRoot := by
          rw [h.baseRoot_eq (hdisk dl rfl ▸ hl), ← hroot]
          rfl
        rw [hsame]
        omega
      | diff dl =>
        obtain ⟨l', hl', hsim⟩ := hc.heaps.similar hl
        cases l' with
        | disk => exact hsim.elim
        | diff dl' =>
          have hle := stateID_le_height hl'
          have hsame : dl' = { dl with parent := dl'.parent } := hsim
          have hid : dl'.id = dl.id := by rw [hsame]
          rw [stateID, hid] at hle
          simp only [Linked.rank, get, hx, bind_some, hl, elim_some, stateID]
          omega

theorem rebase_eq : ∃ t₁ : LayerTree, t₁.heap = t'.heap ∧ t₁.layers = t.layers.insert prev.root n ∧
      t₁.descendants = t.descendants ∧ t₁.lookup = t.lookup ∧
      ∃ t₂, t₂ = (doomed (children t'.heap t₁.layers) (height t'.heap) t.baseRoot).foldl
        removeOne t₁ ∧ t'.layers = t₂.layers ∧ t'.descendants = t₂.descendants ∧
        t'.lookup = t₂.lookup.removeLayer prev := by
  have hheap := hc.heap_eq
  obtain ⟨path, base, db', -, -, -, heq⟩ := hc.persisted
  subst heq
  refine ⟨{ t with
    heap := heap'.set ref (.diff { diff with parent := n })
    layers := t.layers.insert prev.root n
    db := db' }, hheap.symm, rfl, rfl, rfl, ?_⟩
  rw [hheap]
  exact ⟨_, rfl, rfl, rfl, rfl⟩

theorem layers_eq (h : t.Linked) : t'.layers[r]? = some x ↔
      (r = prev.root ∧ x = n) ∨ (Below t.up r prev.root ∧ t.layers[r]? = some x) := by
  have hlayers : t'.layers[r]? =
      if r ∈ doomed (children t'.heap (t.layers.insert prev.root n)) (height t'.heap)
        t.baseRoot then none
      else if r = prev.root then some n else t.layers[r]? := by
    have hinsert : (t.layers.insert prev.root n)[r]? =
        if r = prev.root then some n else t.layers[r]? := by
      rw [Std.ExtTreeMap.getElem?_insert]
      exact if_congr (Std.compare_eq_iff_eq.trans eq_comm) rfl rfl
    obtain ⟨t₁, -, hlayers, -, -, t₂, ht₂, hafter, -, -⟩ := hc.rebase_eq
    rw [← hinsert, ← hlayers, hafter, ht₂]
    exact removeAll_layers _ _ r
  rw [hlayers]
  by_cases hr : r = prev.root
  · subst hr
    have hkept := (hc.mem_doomed h (by rw [hc.parent]; rfl)).not.mpr (not_not.mpr .refl)
    rw [if_neg hkept, if_pos rfl, Option.some.injEq]
    constructor
    · intro hx
      exact .inl ⟨rfl, hx.symm⟩
    · rintro (⟨-, hx⟩ | ⟨hbelow, -⟩)
      · exact hx.symm
      · exact absurd hbelow (h.not_below_self _)
  · rw [if_neg hr]
    constructor
    · intro hx
      split at hx
      · cases hx
      · rename_i hkept
        have hbelow := not_not.mp ((hc.mem_doomed h (by rw [hx]; rfl)).not.mp hkept)
        rcases belowEq_iff.mp hbelow with he | hbelow
        · exact absurd he.symm hr
        · exact .inr ⟨hbelow, hx⟩
    · rintro (⟨he, -⟩ | ⟨hbelow, hx⟩)
      · exact absurd he hr
      · rw [if_neg, hx]
        exact (hc.mem_doomed h (by rw [hx]; rfl)).not.mpr (not_not.mpr hbelow.to_reflTransGen)

theorem above (h : t.Linked) (hr : Below t.up r prev.root) :
    ∃ x dl y, t.layers[r]? = some x ∧ t.heap[x]? = some (.diff dl) ∧ t.up r = some y ∧
      BelowEq t.up y prev.root ∧ prev.id < dl.id := by
  obtain ⟨y, hup, hy⟩ := below_iff_parent.mp hr
  obtain ⟨x, dl, p, hx, hdl, -, -⟩ := h.of_up hup
  have hrank := h.rank_lt hr
  rw [hc.rank_replaced] at hrank
  simp only [Linked.rank, get, hx, bind_some, hdl, elim_some, stateID] at hrank
  exact ⟨x, dl, y, hx, hdl, hup, hy, hrank⟩

end

section Sole

variable (hc : Capped t flushes ref diff prev heap' n t') (h : t.Linked)
  (hsole : ∀ r, t.up r = some prev.root → r = diff.root)

include hc h hsole in
theorem link_above {x : Ref} {dl : DiffLayer} {y : Hash} (hr : Below t.up r prev.root)
    (hx : t.layers[r]? = some x) (hdl : t.heap[x]? = some (.diff dl)) (hup : t.up r = some y) :
    ∃ dl' p', t'.heap[x]? = some (.diff dl') ∧ dl'.changes = dl.changes ∧ dl'.root = r ∧
      t'.heap[dl'.parent]? = some p' ∧ p'.rootHash = y ∧ t'.layers[y]? = some dl'.parent ∧
      dl'.id = p'.stateID + 1 := by
  obtain ⟨x', dl₁, y₁, hx', hdl₁, hup₁, hy, hid⟩ := hc.above h hr
  cases hx.symm.trans hx'
  cases hdl.symm.trans hdl₁
  cases hup.symm.trans hup₁
  obtain ⟨p, hp, hreg, hpid, hup₂⟩ := h.parent_of_diff hx hdl
  obtain rfl : y = p.rootHash := Option.some.inj (hup.symm.trans hup₂)
  have hroot := h.root_eq hx hdl
  by_cases hyn : p.rootHash = prev.root
  · -- the only layer on the flattened one was given the new pointer
    rw [hyn] at hup ⊢
    obtain rfl := hsole r hup
    cases hc.registered.symm.trans hx
    cases hc.diff_at.symm.trans hdl
    obtain ⟨fresh, hfresh, hfroot, -, hfid, -⟩ := hc.heap_base h
    refine ⟨_, .disk fresh, hc.heap_diff, rfl, rfl, hfresh, hfroot, ?_, ?_⟩
    · exact (hc.layers_eq h).mpr (.inl ⟨rfl, rfl⟩)
    · show diff.id = fresh.id + 1
      rw [hfid, hc.id_eq]
  · have hne : x ≠ ref := by
      rintro rfl
      cases hc.diff_at.symm.trans hdl
      cases hc.replaced_at.symm.trans hp
      exact hyn rfl
    have hbelow : Below t.up p.rootHash prev.root := by
      rcases belowEq_iff.mp hy with he | hbelow
      · exact absurd he.symm hyn
      · exact hbelow
    obtain ⟨xp, dlp, yp, hxp, hdlp, -, -, hidp⟩ := hc.above h hbelow
    cases hreg.symm.trans hxp
    cases hp.symm.trans hdlp
    have hreg' := (hc.layers_eq h).mpr (.inr ⟨hbelow, hreg⟩)
    have hx' := hc.heap_above hdl hid hne
    by_cases hparent : dl.parent = ref
    · refine ⟨dl, .diff { diff with parent := n }, hx', rfl, hroot, hparent ▸ hc.heap_diff, ?_,
        hreg', ?_⟩
      · rw [hparent] at hp
        cases hc.diff_at.symm.trans hp
        rfl
      · rw [hparent] at hp
        cases hc.diff_at.symm.trans hp
        exact hpid
    · exact ⟨dl, .diff dlp, hx', rfl, hroot, hc.heap_above hp hidp hparent, rfl, hreg', hpid⟩

include hc h hsole in
theorem linked : t'.Linked := by
  obtain ⟨fresh, hfresh, hfroot, hhist, -, hlive, hcoh, -⟩ := hc.heap_base h
  have hbase : t'.base = n := by
    obtain ⟨path, base, db', -, -, -, rfl⟩ := hc.persisted
    rfl
  have hn : t'.layers[prev.root]? = some n := (hc.layers_eq h).mpr (.inl ⟨rfl, rfl⟩)
  refine ⟨⟨fresh, hbase ▸ hfresh, hlive, ?_, hhist⟩, ?_, ?_, hcoh⟩
  · rw [hfroot, hbase]
    exact hn
  · intro r x hx
    rcases (hc.layers_eq h).mp hx with ⟨rfl, rfl⟩ | ⟨hr, hx⟩
    · exact ⟨_, hfresh, hfroot, fun _ _ => hbase.symm⟩
    · obtain ⟨x', dl, y, hx', hdl, hup, -⟩ := hc.above h hr
      cases hx.symm.trans hx'
      obtain ⟨dl', p', hdl', -, hroot, -⟩ := hc.link_above h hsole hr hx hdl hup
      exact ⟨_, hdl', hroot, by simp⟩
  · intro r x dl' hx hdl'
    rcases (hc.layers_eq h).mp hx with ⟨rfl, rfl⟩ | ⟨hr, hx⟩
    · cases hfresh.symm.trans hdl'
    · obtain ⟨x', dl, y, hx', hdl, hup, -⟩ := hc.above h hr
      cases hx.symm.trans hx'
      obtain ⟨dl₁, p', hdl₁, -, -, hp', rfl, hreg, hid⟩ := hc.link_above h hsole hr hx hdl hup
      cases hdl'.symm.trans hdl₁
      exact ⟨p', hp', hreg, hid⟩

include hc h hsole in
theorem read_eq (hr : BelowEq t.up r prev.root)
    (hkept : item.covered t.db.genMarker = false → Retains t flushes diff.parent item) :
    t'.read item r = t.read item r := by
  have h' := hc.linked h hsole
  induction hr using ReflTransGen.head_induction_on with
  | refl =>
    obtain ⟨fresh, hfresh, hfroot, -, -, -, -, hvalue⟩ := hc.heap_base h
    have hbase : t'.base = n := by
      obtain ⟨path, base, db', -, -, -, rfl⟩ := hc.persisted
      rfl
    rw [← (hvalue item).mpr hkept, ← hfroot]
    exact h'.read_base (hbase ▸ hfresh) item
  | @head r y hup hy ih =>
    have hr : Below t.up r prev.root := TransGen.head' hup hy
    obtain ⟨x, dl, y', hx, hdl, hup', -⟩ := hc.above h hr
    cases hup.symm.trans hup'
    obtain ⟨dl', p', hdl', hchanges, -, hp', hy', -, -⟩ := hc.link_above h hsole hr hx hdl hup
    have hx' := (hc.layers_eq h).mpr (.inr ⟨hr, hx⟩)
    have hupAfter : t'.up r = some y := by
      simp only [up, hx', bind_some, parentRoot, hdl', hp', map_some, hy']
    rw [h'.read_diff hx' hdl' hupAfter, h.read_diff hx hdl hup, hchanges, ih]

end Sole

end Capped

/-! ## Full flattening -/

theorem Flattened.linked {t' : LayerTree} (hf : Flattened t root t') (h : t.Linked) :
    t'.Linked := by
  obtain ⟨ref, top, path, base, _, heap', db', n, href, hchain, hbase, hspec, rfl⟩ :=
    hf.registered
  obtain ⟨fresh, hat, hroot, hid, hlive, -⟩ := hspec.fresh
  have htop : t.heap[ref]? = some (.diff top) := by
    cases hchain with
    | diff h => exact h
  have hsame : top.root = root := h.root_eq href htop
  have hlayers : ∀ {r : Hash} {x : Ref}, (Std.ExtTreeMap.empty.insert root n :
      Std.ExtTreeMap Hash Ref compare)[r]? = some x → r = root ∧ x = n := by
    intro r x hx
    rw [Std.ExtTreeMap.getElem?_insert] at hx
    split at hx
    · rename_i hr
      cases hx
      exact ⟨(Std.compare_eq_iff_eq.mp hr).symm, rfl⟩
    · simp at hx
  refine ⟨⟨fresh, hat, hlive, ?_, ?_⟩, ?_, ?_, hspec.coherent⟩
  · rw [hroot, hsame]
    simp
  · rw [hid]
    exact hspec.histories.symm
  · intro r x hx
    obtain ⟨rfl, rfl⟩ := hlayers hx
    exact ⟨_, hat, hroot.trans hsame, fun _ _ => rfl⟩
  · intro r x dl hx hdl
    obtain ⟨rfl, rfl⟩ := hlayers hx
    cases hat.symm.trans hdl

/-! ## Runs -/

/-- The layer that is flattened has one layer on top of it only. -/
def SoleChild (t : LayerTree) (root : Hash) (layers : ℕ) : Prop :=
  ∀ top ref diff replaced, t.layers[root]? = some top →
    capPoint t.heap layers top = some (ref, diff, replaced) →
    ∀ r, t.up r = some replaced.root → r = diff.root

/-- The condition on a call. -/
def Calm (t : LayerTree) : Op → Prop
  | .cap _ root layers => 0 < layers → SoleChild t root layers
  | _ => True

/-- What a call makes of a linked tree. -/
inductive Stepped (t : LayerTree) : Op → LayerTree → Prop
  -- a call that fails, or that only concerns the store
  | stored {op : Op} {db : Store} (hhist : db.histories = t.db.histories) (hdb : db.Coherent) :
    Stepped t op { t with db := db }
  | added {root parentRoot : Hash} {block : ℕ} {changes : Changes} {ref : Ref} {p : Layer}
    {t' : LayerTree} (h : Added t root parentRoot block changes ref p t') :
    Stepped t (.add root parentRoot block changes) t'
  | flattened {flushes : Hash → Bool} {root : Hash} {layers : ℕ} {t' : LayerTree}
    (h : Flattened t root t') : Stepped t (.cap flushes root layers) t'
  | capped {flushes : Hash → Bool} {root : Hash} {layers : ℕ} {top ref n : Ref}
    {diff prev : DiffLayer} {heap' : Heap} {t' : LayerTree} (hpos : 0 < layers)
    (htop : t.layers[root]? = some top)
    (hpoint : capPoint t.heap layers top = some (ref, diff, prev))
    (h : Capped t flushes ref diff prev heap' n t') : Stepped t (.cap flushes root layers) t'

theorem Linked.stepped (h : t.Linked) (op : Op) : Stepped t op (t.step op) := by
  have hsame : ∀ op, Stepped t op t := fun op => .stored rfl h.coherent
  cases op with
  | add root parentRoot block changes =>
    rw [LayerTree.step]
    cases hadd : t.add root parentRoot block changes with
    | error e => exact hsame _
    | ok t' =>
      rcases add_cases h hadd with rfl | ⟨ref, p, hadded⟩
      · exact hsame _
      · exact .added hadded
  | cap flushes root layers =>
    rw [LayerTree.step]
    cases hcap : t.cap flushes root layers with
    | error e => exact hsame _
    | ok t' =>
      rcases cap_cases h hcap with ⟨-, hf⟩ | ⟨hpos, top, htop, ⟨-, rfl⟩ | hc⟩
      · exact .flattened hf
      · exact hsame _
      · obtain ⟨ref, diff, prev, heap', n, hpoint, hc⟩ := hc
        exact .capped hpos htop hpoint hc
  | fill item =>
    refine .stored ?_ (h.coherent.fill item)
    rcases Store.fill_cases t.db item with hfill | ⟨-, hfill⟩ <;> rw [hfill]
  | evict item => exact .stored rfl (h.coherent.evict item)
  | flushed =>
    rw [LayerTree.step]
    split
    · exact .stored (Store.waitFlush_fields _ _).1 (h.coherent.waitFlush _)
    · exact hsame _
  | generated marker state =>
    rw [LayerTree.step]
    split
    · exact .stored (Store.generate_histories ..) (h.coherent.generate ..)
    · exact hsame _

theorem Linked.step (h : t.Linked) {op : Op} (hcalm : t.Calm op) : (t.step op).Linked := by
  have hstep := h.stepped op
  generalize t.step op = t' at hstep ⊢
  cases hstep with
  | stored hhist hdb => exact h.of_db hhist hdb
  | added ha => exact ha.linked h
  | flattened hf => exact hf.linked h
  | capped hpos htop hpoint hc => exact hc.linked h (hcalm hpos _ _ _ _ htop hpoint)

/-- The tree comes from a single disk layer by calls with `cond`. -/
def Reached (cond : LayerTree → Op → Prop) (head : DiskLayer) (db : Store) (t : LayerTree) : Prop :=
  ∃ H, Run (fun _ t op t' => cond t op ∧ t' = t.step op) (newLayerTree head db) H t

variable {head : DiskLayer} {db : Store}

theorem Reached.start {cond : LayerTree → Op → Prop} :
    Reached cond head db (newLayerTree head db) :=
  ⟨[], .start⟩

theorem Reached.step {cond : LayerTree → Op → Prop} (h : Reached cond head db t) (op : Op)
    (hop : cond t op) : Reached cond head db (t.step op) := by
  obtain ⟨H, hrun⟩ := h
  exact ⟨_, .next hrun ⟨hop, rfl⟩⟩

/-- A disk layer that is up to date with the database. -/
structure Fresh (head : DiskLayer) (db : Store) : Prop where
  live : head.stale = false
  id_eq : head.id = db.histories
  coherent : db.Coherent

theorem Reached.linked (hfresh : Fresh head db) (h : Reached Calm head db t) : t.Linked := by
  obtain ⟨H, hrun⟩ := h
  induction hrun with
  | start => exact newLayerTree_linked hfresh.live hfresh.id_eq hfresh.coherent
  | next _ hstep ih =>
    obtain ⟨hcalm, rfl⟩ := hstep
    exact ih.step hcalm

theorem Linked.read_ne_stale (h : t.Linked) (href : (t.layers[root]?).isSome) :
    t.read item root ≠ .error .snapshotStale := by
  obtain ⟨ref, href⟩ := isSome_iff_exists.mp href
  obtain ⟨base, hbase, -⟩ := h.base
  obtain ⟨path, hpath⟩ := h.chain href
  rw [h.read_chain href hpath hbase, valueOver, DiskLayer.value]
  cases found path item <;> cases base.memory item <;> simp only [elim_none, elim_some] <;>
    (try split) <;> simp

def sampleHash (n : UInt8) : Hash := FixedBytes.ofBytes 32 [n]

def sampleDisk : DiskLayer := ⟨sampleHash 1, 0, fun _ => none, none, false⟩

/-- A database with asynchronous flushing or without it, and with a generator that has come to the
account 5. -/
def sampleStore (noAsyncFlush : Bool) : Store :=
  ⟨fun _ => [], fun _ => none, 0, noAsyncFlush, some (sampleHash 5).bytes⟩

def noChanges : Changes := ⟨[], [], []⟩

/-- The account becomes the value. -/
def setAccount (account value : UInt8) : Changes := ⟨[], [(sampleHash account, [value])], []⟩

theorem sample_fresh {noAsyncFlush : Bool} : Fresh sampleDisk (sampleStore noAsyncFlush) where
  live := rfl
  id_eq := rfl
  coherent := ⟨fun _ _ h => (nomatch Store.cached_some_clean h), fun _ _ => rfl⟩

/-- The layer 2 on top of the disk layer 1 sets account 9 to 8, and 3 is on top of 2. -/
def lineTree (noAsyncFlush : Bool) : LayerTree :=
  ((newLayerTree sampleDisk (sampleStore noAsyncFlush)).step
    (.add (sampleHash 2) (sampleHash 1) 1 (setAccount 9 8))).step
    (.add (sampleHash 3) (sampleHash 2) 2 noChanges)

/-- The account 9 lies beyond the marker, so the flush skips it and its value is gone. -/
theorem cap_loses_uncovered : ∃ t', (lineTree true).cap (fun _ => true) (sampleHash 3) 1 = .ok t' ∧
      (lineTree true).read (.account (sampleHash 9)) (sampleHash 3) = .ok [8] ∧
      t'.read (.account (sampleHash 9)) (sampleHash 3) = .error .notCoveredYet :=
  ⟨_, rfl, by decide, by decide⟩

/-- The layers 4 and 5 are both on top of 3, and 5 sets account 9 again. -/
def crownTree : LayerTree :=
  ((lineTree false).step (.add (sampleHash 4) (sampleHash 3) 3 noChanges)).step
    (.add (sampleHash 5) (sampleHash 3) 3 (setAccount 9 7))

theorem crownTree_soleChild : SoleChild crownTree (sampleHash 4) 2 := by
  intro top ref diff replaced htop hpoint r hup
  cases htop.symm.trans (show _ = some 3 by decide)
  cases hpoint
  have hmem := mem_children.mpr hup
  have hchildren : children crownTree.heap crownTree.layers (sampleHash 2) = [sampleHash 3] := by
    decide
  exact mem_singleton.mp (hchildren ▸ hmem)

end LayerTree

end ChilizChain.PathDb
