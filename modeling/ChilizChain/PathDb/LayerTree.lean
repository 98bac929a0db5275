import ChilizChain.PathDb.Layer

/-! The layer tree: a disk layer and the diff layers on top of it, registered by root hash.

Layers are objects with pointers to their parents, and `cap` redirects some of the pointers only,
so the model keeps the objects in a heap. The walks along parent pointers take fuel; the state id
goes down by one with each parent, so it is enough (`readFrom_chain` and the lemmas beside it). -/

namespace ChilizChain.PathDb

abbrev Heap := List Layer

/-- The roots of the layers that modified an account or a slot, oldest first. -/
abbrev Lookup := Item → List Hash

structure LayerTree where
  heap : Heap
  base : Ref
  layers : Std.ExtTreeMap Hash Ref compare
  -- from an ancestor to the layers on top of it
  descendants : Hash → List Hash
  lookup : Lookup
  db : Store

/-! ## Layers by pointer -/

/-- `node`, `account` and `storage` of a layer. -/
def readFrom (heap : Heap) (db : Store) (item : Item) : ℕ → Ref → Except Error Bytes
  | 0, _ => .error .unknownLayerType
  | fuel + 1, ref =>
    match heap[ref]? with
    | none => .error .unknownLayerType
    | some (.disk dl) => dl.read db item
    | some (.diff dl) =>
      match dl.changes.find item with
      | some blob => .ok blob
      | none => readFrom heap db item fuel dl.parent

/-- The root hashes of a layer and of everything below it. -/
def rootsFrom (heap : Heap) : ℕ → Ref → List Hash
  | 0, _ => []
  | fuel + 1, ref =>
    match heap[ref]? with
    | none => []
    | some (.disk dl) => [dl.root]
    | some (.diff dl) => dl.root :: rootsFrom heap fuel dl.parent

/-- `dl.parentLayer().rootHash()` of a diff layer. -/
def parentRoot (heap : Heap) (ref : Ref) : Option Hash :=
  match heap[ref]? with
  | some (.diff dl) => (heap[dl.parent]?).map Layer.rootHash
  | _ => none

/-- `diffToDisk`: the new disk layer is a new object, the one it was made from is stale. -/
def diffToDisk (flushes : Hash → Bool) (heap : Heap) (db : Store) (layer : DiffLayer) :
    Except Error (Heap × Store × Ref) :=
  match heap[layer.parent]? with
  | some (.disk disk) =>
    match disk.commit db layer (flushes layer.root) with
    | .error e => .error e
    | .ok (fresh, db) =>
      .ok (heap.set layer.parent (.disk { disk with stale := true }) ++ [.disk fresh], db,
        heap.length)
  | _ => .error .unknownLayerType

/-- The layers below are persisted first. -/
def persist (flushes : Hash → Bool) : ℕ → Heap → Store → Ref → Except Error (Heap × Store × Ref)
  | 0, _, _, _ => .error .unknownLayerType
  | fuel + 1, heap, db, ref =>
    match heap[ref]? with
    | some (.diff dl) =>
      match heap[dl.parent]? with
      | some (.diff _) =>
        match persist flushes fuel heap db dl.parent with
        | .error e => .error e
        | .ok (heap, db, result) =>
          let dl := { dl with parent := result }
          diffToDisk flushes (heap.set ref (.diff dl)) db dl
      | _ => diffToDisk flushes heap db dl
    | _ => .error .unknownLayerType

/-- Dive through `n` diff layers; none if there are not so many. -/
def dive (heap : Heap) : ℕ → Ref → Option Ref
  | 0, ref => some ref
  | n + 1, ref =>
    match heap[ref]? with
    | some (.diff dl) =>
      match heap[dl.parent]? with
      | some (.diff _) => dive heap n dl.parent
      | _ => none
    | _ => none

/-- Where `cap` flattens: the last layer that stays with its pointer, and its parent, from which on
everything is persisted. None if what is below is not more than the disk layer. -/
def capPoint (heap : Heap) (layers : ℕ) (top : Ref) : Option (Ref × DiffLayer × DiffLayer) :=
  match dive heap (layers - 1) top with
  | none => none
  | some ref =>
    match heap[ref]? with
    | some (.diff diff) =>
      match heap[diff.parent]? with
      | some (.diff parent) => some (ref, diff, parent)
      | _ => none
    | _ => none

/-! ## The lookup -/

namespace Lookup

/-- The root of the layer that holds the value of a state: the last listed one that is the state
itself or an ancestor of it, else the base; the zero hash if the state is unknown. -/
def tip (list : List Hash) (descendant : Hash → Hash → Bool) (stateID base : Hash) : Hash :=
  match list.reverse.find? fun root => root == stateID || descendant stateID root with
  | some root => root
  | none => if base == stateID || descendant stateID base then base else FixedBytes.zero 32

variable (l : Lookup)

def accountTip (descendant : Hash → Hash → Bool) (accountHash stateID base : Hash) :
    Hash :=
  tip (l (.account accountHash)) descendant stateID base

def storageTip (descendant : Hash → Hash → Bool)
    (accountHash slotHash stateID base : Hash) : Hash :=
  tip (l (.slot accountHash slotHash)) descendant stateID base

def holds (changes : Changes) (item : Item) : Bool := item.isFlat && (changes.find item).isSome

def addLayer (diff : DiffLayer) : Lookup := fun item =>
  if holds diff.changes item then l item ++ [diff.root] else l item

def removeLayer (diff : DiffLayer) : Lookup := fun item =>
  if holds diff.changes item then (l item).erase diff.root else l item

/-- `clearDiff` -/
def clear : Option Layer → Lookup
  | some (.diff diff) => l.removeLayer diff
  | _ => l

end Lookup

/-! ## The tree -/

namespace LayerTree

/-- A tree of one disk layer. -/
def newLayerTree (head : DiskLayer) (db : Store) : LayerTree where
  heap := [.disk head]
  base := 0
  layers := Std.ExtTreeMap.empty.insert head.root 0
  descendants := fun _ => []
  lookup := fun _ => []
  db := db

variable (t : LayerTree)

def get (root : Hash) : Option Layer := (t.layers[root]?).bind (t.heap[·]?)

def baseRoot : Hash := (t.heap[t.base]?).elim (FixedBytes.zero 32) Layer.rootHash

/-- Reading through the layer of a root. -/
def read (item : Item) (root : Hash) : Except Error Bytes :=
  match t.layers[root]? with
  | none => .error (.layerMissing root)
  | some ref =>
    readFrom t.heap t.db item ((t.heap[ref]?).elim 0 Layer.stateID + 1) ref

def isDescendant (root ancestor : Hash) : Bool :=
  (t.descendants ancestor).contains root

/-- `fillAncestors`, with the roots of the layers above. -/
def fillAncestors (descendants : Hash → List Hash) (hash : Hash) (ancestors : List Hash) :
    Hash → List Hash := fun ancestor =>
  if ancestor ∈ ancestors then hash :: descendants ancestor else descendants ancestor

def add (root parentRoot : Hash) (block : ℕ) (changes : Changes) :
    Except Error LayerTree :=
  if root = parentRoot then .error .layerCycle
  else if (t.layers[root]?).isSome then .ok t
  else
    match t.layers[parentRoot]? with
    | none => .error (.layerMissing parentRoot)
    | some ref =>
      let stateID := (t.heap[ref]?).elim 0 Layer.stateID
      let l : DiffLayer := ⟨root, stateID + 1, block, changes, ref⟩
      .ok
        { t with
          heap := t.heap ++ [.diff l]
          layers := t.layers.insert root t.heap.length
          descendants := fillAncestors t.descendants root (rootsFrom t.heap (stateID + 1) ref)
          lookup := t.lookup.addLayer l }

/-- The roots of the layers whose parent has the given root. -/
def children (heap : Heap) (layers : Std.ExtTreeMap Hash Ref compare) (root : Hash) : List Hash :=
  layers.toList.filterMap fun (child, ref) =>
    if parentRoot heap ref = some root then some child else none

/-- What `remove` removes, in its order. -/
def doomed (children : Hash → List Hash) : ℕ → Hash → List Hash
  | 0, root => [root]
  | fuel + 1, root => root :: (children root).flatMap (doomed children fuel)

/-- One call of `remove`, without the calls for the children. -/
def removeOne (root : Hash) : LayerTree :=
  { t with
    lookup := t.lookup.clear (t.get root)
    descendants := Function.update t.descendants root []
    layers := t.layers.erase root }

/-- No state id is above. -/
def height (heap : Heap) : ℕ := (heap.map Layer.stateID).foldr max 0

/-- `newBase` has taken the place of `replaced`: remove the old base with everything on top of it
that is not on top of the new base. -/
def rebase (oldRoot : Hash) (replaced : DiffLayer) (newBase : Ref) : LayerTree :=
  let t := { t with layers := t.layers.insert replaced.root newBase }
  let removed := doomed (children t.heap t.layers) (height t.heap) oldRoot
  let t := removed.foldl removeOne t
  { t with lookup := t.lookup.removeLayer replaced, base := newBase }

/-- Flatten what is below the `layers` topmost diff layers. `flushes` says at which of the
persisted layers the buffer is flushed. -/
def cap (flushes : Hash → Bool) (root : Hash) (layers : ℕ) :
    Except Error LayerTree :=
  match t.layers[root]? with
  | none => .error (.layerMissing root)
  | some ref =>
    match t.heap[ref]? with
    | some (.diff top) =>
      if layers = 0 then
        match persist (fun _ => true) (top.id + 1) t.heap t.db ref with
        | .error e => .error e
        | .ok (heap, db, base) =>
          .ok ⟨heap, base, Std.ExtTreeMap.empty.insert root base, fun _ => [], fun _ => [], db⟩
      else
        match capPoint t.heap layers ref with
        | none => .ok t
        | some (ref, diff, replaced) =>
          match persist flushes (replaced.id + 1) t.heap t.db diff.parent with
          | .error e => .error e
          | .ok (heap, db, newBase) =>
            let heap := heap.set ref (.diff { diff with parent := newBase })
            .ok (rebase { t with heap := heap, db := db } t.baseRoot replaced newBase)
    | _ => .error (.layerIsDisk root)

/-- `lookupAccount` and `lookupStorage` after the tip is known. -/
def lookupTip (tip : Hash) : Except Error Layer :=
  if tip = FixedBytes.zero 32 then .error .snapshotStale
  else
    match t.get tip with
    | none => .error (.layerMissing tip)
    | some l => .ok l

def lookupAccount (accountHash state : Hash) : Except Error Layer :=
  t.lookupTip (t.lookup.accountTip t.isDescendant accountHash state t.baseRoot)

def lookupStorage (accountHash slotHash state : Hash) : Except Error Layer :=
  t.lookupTip (t.lookup.storageTip t.isDescendant accountHash slotHash state t.baseRoot)

/-! ## Runs -/

inductive Op where
  | add (root parentRoot : Hash) (block : ℕ) (changes : Changes)
  | cap (flushes : Hash → Bool) (root : Hash) (layers : ℕ)
  -- a read leaves an entry in the clean cache
  | fill (item : Item)
  | evict (item : Item)
  -- the frozen buffer of the base reaches the disk
  | flushed
  -- the generator goes on
  | generated (marker : Option Bytes) (state : Item → Bytes)

/-- A call that fails changes nothing. -/
def step : Op → LayerTree
  | .add root parentRoot block changes =>
    match t.add root parentRoot block changes with
    | .ok t' => t'
    | .error _ => t
  | .cap flushes root layers =>
    match t.cap flushes root layers with
    | .ok t' => t'
    | .error _ => t
  | .fill item => { t with db := t.db.fill item }
  | .evict item => { t with db := t.db.evict item }
  | .flushed =>
    match t.heap[t.base]? with
    | some (.disk dl) => { t with db := t.db.waitFlush dl.frozen }
    | _ => t
  | .generated marker state =>
    match t.heap[t.base]? with
    | some (.disk dl) => { t with db := t.db.generate dl.frozen marker state }
    | _ => t

end LayerTree

end ChilizChain.PathDb
