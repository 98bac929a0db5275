import ChilizChain.Lib.Ancestry
import ChilizChain.PathDb.Chain

/-! Layer trees in which the parent pointers of the registered layers lead to registered layers
and in the end to the base. Reads through such a tree never fail; new layers and what happens in
the database below keep it linked. -/

namespace ChilizChain.PathDb

open Ancestry Relation Option Std.ExtTreeMap

namespace LayerTree

/-- The root of the parent of a registered diff layer. -/
def up (t : LayerTree) (root : Hash) : Option Hash := (t.layers[root]?).bind (parentRoot t.heap)

/-- Pointers of registered layers stay inside the tree. -/
structure Linked (t : LayerTree) : Prop where
  base : ∃ dl, t.heap[t.base]? = some (.disk dl) ∧ dl.stale = false ∧
    t.layers[dl.root]? = some t.base ∧ dl.id = t.db.histories
  roots : ∀ {root : Hash} {ref : Ref}, t.layers[root]? = some ref →
    ∃ l, t.heap[ref]? = some l ∧ l.rootHash = root ∧ ∀ dl, l = .disk dl → ref = t.base
  parents : ∀ {root : Hash} {ref : Ref} {dl : DiffLayer},
    t.layers[root]? = some ref → t.heap[ref]? = some (.diff dl) →
    ∃ p, t.heap[dl.parent]? = some p ∧ t.layers[p.rootHash]? = some dl.parent ∧
      dl.id = p.stateID + 1
  coherent : t.db.Coherent

variable {t : LayerTree} {root : Hash} {ref : Ref} {dl : DiffLayer} {item : Item}

/-! ## Linked trees -/

namespace Linked

theorem parent_of_diff (h : t.Linked) (href : t.layers[root]? = some ref)
    (hdl : t.heap[ref]? = some (.diff dl)) :
    ∃ p, t.heap[dl.parent]? = some p ∧ t.layers[p.rootHash]? = some dl.parent ∧
      dl.id = p.stateID + 1 ∧ t.up root = some p.rootHash := by
  obtain ⟨p, hp, hreg, hid⟩ := h.parents href hdl
  refine ⟨p, hp, hreg, hid, ?_⟩
  simp only [up, href, bind_some, parentRoot, hdl, hp, map_some]

theorem root_eq (h : t.Linked) {l : Layer} (href : t.layers[root]? = some ref)
    (hl : t.heap[ref]? = some l) : l.rootHash = root := by
  obtain ⟨l', hl', hroot, -⟩ := h.roots href
  cases hl.symm.trans hl'
  exact hroot

theorem of_up (h : t.Linked) {parent : Hash} (hup : t.up root = some parent) :
    ∃ ref dl p, t.layers[root]? = some ref ∧ t.heap[ref]? = some (.diff dl) ∧ dl.root = root ∧
      t.heap[dl.parent]? = some p ∧ p.rootHash = parent ∧
      t.layers[parent]? = some dl.parent ∧ dl.id = p.stateID + 1 := by
  obtain ⟨ref, href, hparent⟩ := bind_eq_some_iff.mp hup
  unfold parentRoot at hparent
  split at hparent
  · rename_i dl hdl
    obtain ⟨p, hp, hreg, hid⟩ := h.parents href hdl
    rw [hp] at hparent
    obtain rfl : p.rootHash = parent := Option.some.inj hparent
    exact ⟨ref, dl, p, href, hdl, h.root_eq href hdl, hp, rfl, hreg, hid⟩
  · cases hparent

theorem chain (h : t.Linked) (href : t.layers[root]? = some ref) :
    ∃ path, Chain t.heap ref path t.base := by
  obtain ⟨l, hl, -, hdisk⟩ := h.roots href
  -- the state id goes down with each parent
  induction hn : l.stateID using Nat.strong_induction_on generalizing root ref l with
  | _ n ih =>
    cases l with
    | disk dl =>
      rw [hdisk dl rfl] at hl ⊢
      exact ⟨[], .disk hl⟩
    | diff dl =>
      obtain ⟨p, hp, hreg, hid⟩ := h.parents href hl
      obtain ⟨l', hl', -, hdisk'⟩ := h.roots hreg
      cases hp.symm.trans hl'
      have hlt : p.stateID < n := by
        rw [← hn, Layer.stateID, hid]
        exact Nat.lt_succ_self _
      obtain ⟨path, hpath⟩ := ih _ hlt hreg p hp hdisk' rfl
      exact ⟨_, .diff hl hp hid hpath⟩

/-- The state id of a registered layer. -/
def rank (t : LayerTree) (root : Hash) : ℕ := (t.get root).elim 0 Layer.stateID

variable {x : Hash}

theorem rank_of_up (h : t.Linked) {y : Hash} (hup : t.up x = some y) : rank t x = rank t y + 1 := by
  obtain ⟨ref, dl, p, href, hdl, -, hp, -, hreg, hid⟩ := h.of_up hup
  simp only [rank, get, href, hreg, bind_some, hdl, hp, elim_some, Layer.stateID]
  exact hid

theorem rank_lt (h : t.Linked) {a : Hash} (hx : Below t.up x a) : rank t a < rank t x := by
  refine rank_lt_of_below ?_ hx
  intro x y hup
  rw [h.rank_of_up hup]
  exact Nat.lt_succ_self _

theorem not_below_self (h : t.Linked) (x : Hash) : ¬ Below t.up x x := fun hx =>
  absurd (h.rank_lt hx) (Nat.lt_irrefl _)

variable {base : DiskLayer}

theorem baseRoot_eq (_ : t.Linked) (hbase : t.heap[t.base]? = some (.disk base)) :
    t.baseRoot = base.root := by
  simp only [baseRoot, hbase, elim_some, Layer.rootHash]

section

variable (h : t.Linked)
include h

theorem belowEq_baseRoot (href : t.layers[root]? = some ref) : BelowEq t.up root t.baseRoot := by
  obtain ⟨path, hpath⟩ := h.chain href
  generalize hb : t.base = b at hpath
  induction hpath generalizing root with
  | disk hdisk =>
    subst hb
    rw [h.baseRoot_eq hdisk, ← h.root_eq href hdisk]
    exact .refl
  | diff hdl _ _ _ ih =>
    obtain ⟨p, hp, hreg, -, hup⟩ := h.parent_of_diff href hdl
    exact .head hup (ih hreg hb)

theorem up_baseRoot : t.up t.baseRoot = none := by
  obtain ⟨base, hbase, -, hreg, -⟩ := h.base
  rw [h.baseRoot_eq hbase]
  simp only [up, hreg, bind_some, parentRoot, hbase]

theorem registered_of_belowEq {y : Hash} (hx : (t.layers[x]?).isSome)
    (hxy : BelowEq t.up x y) : (t.layers[y]?).isSome := by
  induction hxy with
  | refl => exact hx
  | tail _ hup _ =>
    obtain ⟨ref, dl, p, -, -, -, -, -, hreg, -⟩ := h.of_up hup
    rw [hreg]
    rfl

/-! ### Reads -/

theorem read_base (hbase : t.heap[t.base]? = some (.disk base)) (item : Item) :
    t.read item base.root = base.value t.db item := by
  obtain ⟨dl, hdl, hlive, hreg, -⟩ := h.base
  cases hbase.symm.trans hdl
  simp only [read, hreg, hbase, readFrom]
  exact base.read_eq_value h.coherent hlive item

theorem read_diff {parent : Hash} (href : t.layers[root]? = some ref)
    (hdl : t.heap[ref]? = some (.diff dl)) (hup : t.up root = some parent) :
    t.read item root =
      match dl.changes.find item with
      | some blob => .ok blob
      | none => t.read item parent := by
  obtain ⟨p, hp, hreg, hid, hup'⟩ := h.parent_of_diff href hdl
  obtain rfl : p.rootHash = parent := Option.some.inj (hup'.symm.trans hup)
  have hstate : Layer.stateID (.diff dl) = p.stateID + 1 := hid
  simp only [read, href, hdl, hreg, hp, elim_some, hstate]
  conv_lhs => rw [readFrom]
  cases hfind : dl.changes.find item with
  | none => simp only [hdl, hfind]
  | some blob => simp only [hdl, hfind]

theorem read_chain {path : List (Ref × DiffLayer)}
    (href : t.layers[root]? = some ref) (hpath : Chain t.heap ref path t.base)
    (hbase : t.heap[t.base]? = some (.disk base)) :
    t.read item root = valueOver path base t.db item := by
  obtain ⟨l, hl, -, -⟩ := h.roots href
  have hfuel : path.length < l.stateID + 1 := by
    rw [hpath.stateID_eq hbase hl]
    omega
  obtain ⟨dl, hdl, hlive, -, -⟩ := h.base
  cases hbase.symm.trans hdl
  simp only [read, href, hl, elim_some]
  rw [readFrom_chain hpath hbase hfuel, valueOver]
  cases found path item with
  | some blob => rfl
  | none => exact base.read_eq_value h.coherent hlive item

end

end Linked

/-! ## New layers and the database below -/

theorem newLayerTree_linked {head : DiskLayer} {db : Store} (hlive : head.stale = false)
    (hid : head.id = db.histories) (hdb : db.Coherent) : (newLayerTree head db).Linked where
  base := ⟨head, rfl, hlive, by simp [newLayerTree], hid⟩
  roots := by
    intro root ref href
    simp only [newLayerTree, getElem?_insert] at href
    split at href
    · rename_i hroot
      cases href
      exact ⟨.disk head, rfl, Std.LawfulEqCmp.eq_of_compare hroot, fun _ _ => rfl⟩
    · simp at href
  parents := by
    intro root ref dl href hdl
    simp only [newLayerTree, getElem?_insert] at href
    split at href
    · cases href
      simp [newLayerTree] at hdl
    · simp at href
  coherent := hdb

/-- What `add` does when it does something. -/
structure Added (t : LayerTree) (root parentRoot : Hash) (block : ℕ) (changes : Changes)
    (ref : Ref) (p : Layer) (t' : LayerTree) : Prop where
  ne : root ≠ parentRoot
  free : t.layers[root]? = none
  parent : t.layers[parentRoot]? = some ref
  layer : t.heap[ref]? = some p
  eq : t' = { t with
    heap := t.heap ++ [.diff ⟨root, p.stateID + 1, block, changes, ref⟩]
    layers := t.layers.insert root t.heap.length
    descendants := fillAncestors t.descendants root (rootsFrom t.heap (p.stateID + 1) ref)
    lookup := t.lookup.addLayer ⟨root, p.stateID + 1, block, changes, ref⟩ }

theorem add_cases (h : t.Linked) {parentRoot : Hash} {block : ℕ} {changes : Changes}
    {t' : LayerTree} (hadd : t.add root parentRoot block changes = .ok t') :
    t' = t ∨ ∃ ref p, Added t root parentRoot block changes ref p t' := by
  unfold add at hadd
  split at hadd
  · cases hadd
  · rename_i hne
    split at hadd
    · cases hadd
      exact .inl rfl
    · rename_i hfree
      cases hparent : t.layers[parentRoot]? with
      | none =>
        rw [hparent] at hadd
        cases hadd
      | some ref =>
        rw [hparent] at hadd
        obtain ⟨p, hp, -, -⟩ := h.roots hparent
        simp only [hp, elim_some] at hadd
        cases hadd
        exact .inr ⟨ref, p, hne, by simpa using hfree, hparent, hp, rfl⟩

namespace Added

variable {parentRoot : Hash} {block : ℕ} {changes : Changes} {p : Layer} {t' : LayerTree}

section

variable (h : Added t root parentRoot block changes ref p t')
include h

theorem layers_eq (r : Hash) :
    t'.layers[r]? = if r = root then some t.heap.length else t.layers[r]? := by
  rw [h.eq, getElem?_insert]
  exact if_congr (Std.compare_eq_iff_eq.trans eq_comm) rfl rfl

theorem heap_eq {x : Ref} {l : Layer} (hx : t.heap[x]? = some l) : t'.heap[x]? = some l := by
  rw [h.eq]
  exact (List.getElem?_append_left (List.getElem?_eq_some_iff.mp hx).1).trans hx

theorem heap_new :
    t'.heap[t.heap.length]? = some (.diff ⟨root, p.stateID + 1, block, changes, ref⟩) := by
  rw [h.eq]
  simp

end

theorem linked (hadd : Added t root parentRoot block changes ref p t') (h : t.Linked) :
    t'.Linked where
  base := by
    obtain ⟨dl, hdl, hlive, hreg, hid⟩ := h.base
    have hroot : dl.root ≠ root := by
      rintro rfl
      rw [hadd.free] at hreg
      cases hreg
    have hbase : t'.base = t.base := by rw [hadd.eq]
    have hdb : t'.db = t.db := by rw [hadd.eq]
    refine ⟨dl, hbase ▸ hadd.heap_eq hdl, hlive, ?_, hdb ▸ hid⟩
    rw [hadd.layers_eq, if_neg hroot, hreg, hbase]
  roots := by
    intro r x hx
    rw [hadd.layers_eq] at hx
    split at hx
    · rename_i hr
      cases hx
      exact ⟨_, hadd.heap_new, hr.symm, by simp⟩
    · obtain ⟨l, hl, hroot, hdisk⟩ := h.roots hx
      have hbase : t'.base = t.base := by rw [hadd.eq]
      exact ⟨l, hadd.heap_eq hl, hroot, fun dl hdl => hbase ▸ hdisk dl hdl⟩
  parents := by
    intro r x dl hx hdl
    rw [hadd.layers_eq] at hx
    have hold : ∀ {q : Layer} {y : Ref}, t.layers[q.rootHash]? = some y →
        t'.layers[q.rootHash]? = some y := by
      intro q y hq
      rw [hadd.layers_eq, if_neg, hq]
      intro hr
      rw [hr, hadd.free] at hq
      cases hq
    split at hx
    · cases hx
      cases hadd.heap_new.symm.trans hdl
      refine ⟨p, hadd.heap_eq hadd.layer, hold ?_, rfl⟩
      rw [h.root_eq hadd.parent hadd.layer]
      exact hadd.parent
    · obtain ⟨l, hl, -, -⟩ := h.roots hx
      cases (hadd.heap_eq hl).symm.trans hdl
      obtain ⟨q, hq, hreg, hid⟩ := h.parents hx hl
      exact ⟨q, hadd.heap_eq hq, hold hreg, hid⟩
  coherent := by
    rw [hadd.eq]
    exact h.coherent

end Added

theorem Linked.of_db (h : t.Linked) {db : Store} (hhist : db.histories = t.db.histories)
    (hdb : db.Coherent) : Linked { t with db := db } where
  base := by
    obtain ⟨dl, hdl, hlive, hreg, hid⟩ := h.base
    exact ⟨dl, hdl, hlive, hreg, hid.trans hhist.symm⟩
  roots := h.roots
  parents := h.parents
  coherent := hdb

end LayerTree

end ChilizChain.PathDb
