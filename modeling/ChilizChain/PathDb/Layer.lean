import ChilizChain.Parlia.Header

/-! The layers of the path database: diff layers with the changes of one state transition, and
the disk layer, whose values are in a live buffer, a frozen buffer on its way to the disk, a clean
cache and the disk itself.

`commit` merges a diff layer into the buffer of the disk layer below it. What is read afterwards is
what the diff layer holds, and below it what was read before, as far as the flat state has been
generated (`commit_spec`). What lies beyond the marker of the generator is only in the buffers. -/

namespace ChilizChain.PathDb

open Function

/-- What is read through a layer. -/
inductive Item where
  | node (owner : Hash) (path : Bytes)
  | account (hash : Hash)
  | slot (accountHash storageHash : Hash)
deriving DecidableEq

/-- Accounts and slots are found through the lookup, trie nodes are not. -/
def Item.isFlat : Item → Bool
  | .node .. => false
  | .account _ => true
  | .slot .. => true

/-- Whether the generator of the flat state has passed an account or a slot. Without a marker it has
finished; trie nodes do not depend on it. For a slot the comparisons of `writeStates`, first of the
account and then of the slot, are that of the joined key in `storage`. -/
def Item.covered (marker : Option Bytes) : Item → Bool
  | .node .. => true
  | .account hash => marker.all fun m => !decide (m < hash.bytes)
  | .slot accountHash storageHash =>
    marker.all fun m => !decide (m < accountHash.bytes ++ storageHash.bytes)

/-- The node set and the state set of one state transition. An empty blob stands for a deleted
value. -/
structure Changes where
  nodes : List ((Hash × Bytes) × Bytes)
  accountData : List (Hash × Bytes)
  storageData : List ((Hash × Hash) × Bytes)

def Changes.find (c : Changes) : Item → Option Bytes
  | .node owner path => c.nodes.lookup (owner, path)
  | .account hash => c.accountData.lookup hash
  | .slot accountHash storageHash => c.storageData.lookup (accountHash, storageHash)

abbrev Ref := ℕ

structure DiffLayer where
  root : Hash
  id : ℕ
  block : ℕ
  changes : Changes
  -- a pointer, which persisting the layers below redirects
  parent : Ref

/-- The changes of the aggregated transitions. -/
abbrev Buffer := Item → Option Bytes

structure DiskLayer where
  root : Hash
  id : ℕ
  buffer : Buffer
  frozen : Option Buffer
  stale : Bool

inductive Layer where
  | disk (layer : DiskLayer)
  | diff (layer : DiffLayer)

def Layer.rootHash : Layer → Hash
  | .disk layer => layer.root
  | .diff layer => layer.root

def Layer.stateID : Layer → ℕ
  | .disk layer => layer.id
  | .diff layer => layer.id

inductive Error where
  | snapshotStale
  | notCoveredYet
  | layerCycle
  | layerMissing (root : Hash)
  | layerIsDisk (root : Hash)
  | outOrderInsertion
  | unknownLayerType
deriving DecidableEq

/-! ## The database under the disk layers -/

/-- The key-value store, the clean cache in front of it, how many state histories are stored, and
how far the generator has come that all disk layers share. -/
structure Store where
  disk : Item → Bytes
  clean : Item → Option Bytes
  histories : ℕ
  noAsyncFlush : Bool
  genMarker : Option Bytes

namespace Store

/-- A cached trie node counts only if it is not empty; a cached account or slot counts always. -/
def cached (db : Store) (item : Item) : Option Bytes :=
  match item, db.clean item with
  | .node .., some [] => none
  | _, found => found

def read (db : Store) (item : Item) : Bytes := (db.cached item).getD (db.disk item)

/-- What a read that went to the disk leaves in the clean cache. -/
def fill (db : Store) (item : Item) : Store :=
  if item.covered db.genMarker then
    match db.cached item, item, db.disk item with
    | some _, _, _ => db
    | none, .node .., [] => db
    | none, _, blob => { db with clean := Function.update db.clean item (some blob) }
  else db

/-- The clean cache may lose an entry at any time. -/
def evict (db : Store) (item : Item) : Store :=
  { db with clean := Function.update db.clean item none }

/-- A batch for the disk, and the clean cache with it. -/
def write (db : Store) (batch : Buffer) : Store :=
  { db with
    disk := fun item => (batch item).getD (db.disk item)
    clean := fun item =>
      match batch item, item with
      | none, _ => db.clean item
      | some [], .node .. => none
      | some blob, _ => some blob }

/-- `writeNodes` and `writeStates`, which skips the states that the generator has not passed. -/
def flush (db : Store) (buffer : Buffer) : Store :=
  db.write fun item => if item.covered db.genMarker then buffer item else none

/-- Wait until the frozen buffer is written; writing it again changes nothing. -/
def waitFlush (db : Store) (frozen : Option Buffer) : Store :=
  match frozen with
  | none => db
  | some buffer => db.flush buffer

/-- The generator goes on to a later marker. The states that it passes get their values in the
persisted state: those of the buffer that was flushed last, where it has them. -/
def generate (db : Store) (frozen : Option Buffer) (marker : Option Bytes) (state : Item → Bytes) :
    Store :=
  if marker.all fun m => db.genMarker.any fun old => !decide (m < old) then
    { db with
      genMarker := marker
      disk := fun item =>
        if item.covered marker && !item.covered db.genMarker then
          (frozen.bind (· item)).getD (state item)
        else db.disk item }
  else db

/-- The clean cache holds what the disk holds, and nothing that the generator has not passed. -/
structure Coherent (db : Store) : Prop where
  cached : ∀ item blob, db.cached item = some blob → blob = db.disk item
  uncovered : ∀ item, item.covered db.genMarker = false → db.clean item = none

variable {db : Store} {item : Item}

theorem Coherent.read_eq (h : db.Coherent) (item : Item) : db.read item = db.disk item := by
  rw [read]
  cases hc : db.cached item with
  | none => rfl
  | some blob => exact h.cached item blob hc

theorem cached_of_clean_eq {db' : Store} (h : db'.clean item = db.clean item) :
    db'.cached item = db.cached item := by
  simp only [cached, h]

theorem cached_some_clean {blob : Bytes} (h : db.cached item = some blob) :
    db.clean item = some blob := by
  unfold cached at h
  split at h
  · cases h
  · exact h

theorem fill_cases (db : Store) (item : Item) :
    db.fill item = db ∨ item.covered db.genMarker = true ∧
      db.fill item = { db with clean := update db.clean item (some (db.disk item)) } := by
  unfold fill
  split
  · rename_i hcovered
    split
    · exact .inl rfl
    · exact .inl rfl
    · exact .inr ⟨hcovered, rfl⟩
  · exact .inl rfl

theorem Coherent.update (h : db.Coherent) {entry : Option Bytes}
    (hentry : ∀ blob, entry = some blob → blob = db.disk item ∧ item.covered db.genMarker = true) :
    Coherent { db with clean := update db.clean item entry } where
  cached other blob hblob := by
    by_cases hother : other = item
    · have hclean : Function.update db.clean item entry other = some blob :=
        cached_some_clean hblob
      rw [hother, update_self] at hclean
      rw [hother]
      exact (hentry blob hclean).1
    · refine h.cached other blob ?_
      rw [← hblob]
      exact (cached_of_clean_eq (update_of_ne hother ..)).symm
  uncovered other hother := by
    by_cases heq : other = item
    · subst heq
      refine (update_self other entry db.clean).trans (Option.eq_none_iff_forall_ne_some.mpr ?_)
      intro blob hblob
      exact Bool.false_ne_true (hother.symm.trans (hentry blob hblob).2)
    · exact (update_of_ne heq entry db.clean).trans (h.uncovered other hother)

theorem Coherent.fill (h : db.Coherent) (item : Item) : (db.fill item).Coherent := by
  rcases fill_cases db item with hfill | ⟨hcovered, hfill⟩
  · rwa [hfill]
  · rw [hfill]
    exact h.update fun blob hblob => ⟨(Option.some.inj hblob).symm, hcovered⟩

theorem Coherent.evict (h : db.Coherent) (item : Item) : (db.evict item).Coherent :=
  h.update fun _ hblob => nomatch hblob

theorem Coherent.flush (h : db.Coherent) (buffer : Buffer) : (db.flush buffer).Coherent where
  cached item blob hblob := by
    have hclean := cached_some_clean hblob
    unfold Store.flush at hblob hclean ⊢
    generalize (fun item => if item.covered db.genMarker then buffer item else none) = batch
      at hblob hclean ⊢
    cases hb : batch item with
    | none =>
      have hsame : (db.write batch).clean item = db.clean item := by simp only [write, hb]
      rw [cached_of_clean_eq hsame] at hblob
      simpa only [write, hb, Option.getD_none] using h.cached item blob hblob
    | some new =>
      simp only [write, hb] at hclean
      simp only [write, hb, Option.getD_some]
      split at hclean
      · contradiction
      · cases hclean
      · rename_i hnew _
        cases hnew
        exact (Option.some.inj hclean).symm
  uncovered item hitem := by
    have hclean := h.uncovered item hitem
    have hsame : item.covered db.genMarker = false := hitem
    simp only [Store.flush, write, hsame, Bool.false_eq_true, if_false, hclean]

theorem Coherent.waitFlush (h : db.Coherent) (frozen : Option Buffer) :
    (db.waitFlush frozen).Coherent := by
  cases frozen with
  | none => exact h
  | some buffer => exact h.flush buffer

theorem covered_of_generate {marker : Option Bytes}
    (hlater : (marker.all fun m => db.genMarker.any fun old => !decide (m < old)) = true)
    (hitem : item.covered db.genMarker = true) : item.covered marker = true := by
  have hkey : ∀ key : Bytes, (db.genMarker.all fun m => !decide (m < key)) = true →
      (marker.all fun m => !decide (m < key)) = true := by
    intro key hold
    cases hm : marker with
    | none => rfl
    | some m =>
      rw [hm, Option.all_some] at hlater
      obtain ⟨old, hgen⟩ : ∃ old, db.genMarker = some old := by
        cases hgen : db.genMarker with
        | none =>
          rw [hgen] at hlater
          cases hlater
        | some old => exact ⟨old, rfl⟩
      rw [hgen] at hlater hold
      simp only [Option.any_some, Option.all_some, Bool.not_eq_true', decide_eq_false_iff_not,
        List.not_lt] at hlater hold ⊢
      exact List.le_trans hold hlater
  cases item with
  | node => rfl
  | account hash => exact hkey _ hitem
  | slot accountHash storageHash => exact hkey _ hitem

theorem Coherent.generate (h : db.Coherent) (frozen : Option Buffer) (marker : Option Bytes)
    (state : Item → Bytes) : (db.generate frozen marker state).Coherent := by
  unfold Store.generate
  split
  · rename_i hlater
    constructor
    · intro item blob hblob
      have hcovered : item.covered db.genMarker = true := by
        by_contra hnot
        have hnone := h.uncovered item (by simpa using hnot)
        cases (cached_some_clean hblob).symm.trans hnone
      simp only [hcovered, Bool.not_true, Bool.and_false, Bool.false_eq_true, if_false]
      exact h.cached item blob hblob
    · intro item hitem
      refine h.uncovered item ?_
      by_contra hnot
      have := covered_of_generate hlater (by simpa using hnot)
      exact Bool.false_ne_true (hitem.symm.trans this)
  · exact h

theorem generate_histories (frozen : Option Buffer) (marker : Option Bytes)
    (state : Item → Bytes) : (db.generate frozen marker state).histories = db.histories := by
  unfold generate
  split <;> rfl

theorem waitFlush_fields (db : Store) (frozen : Option Buffer) :
    (db.waitFlush frozen).histories = db.histories ∧
      (db.waitFlush frozen).genMarker = db.genMarker ∧
      (db.waitFlush frozen).noAsyncFlush = db.noAsyncFlush := by
  cases frozen <;> exact ⟨rfl, rfl, rfl⟩

theorem flush_disk (buffer : Buffer) (hcovered : item.covered db.genMarker = true) :
    (db.flush buffer).disk item = (buffer item).getD (db.disk item) := by
  simp only [flush, write, hcovered, if_true]

theorem waitFlush_disk (frozen : Option Buffer) (hcovered : item.covered db.genMarker = true) :
    (db.waitFlush frozen).disk item = (frozen.bind (· item)).getD (db.disk item) := by
  cases frozen with
  | none => rfl
  | some buffer => exact flush_disk buffer hcovered

end Store

/-! ## The disk layer -/

namespace DiskLayer

/-- What is found in the live buffer or in the frozen one. -/
def inBuffers (buffers : Buffer × Option Buffer) (item : Item) : Option Bytes :=
  (buffers.1 item).or (buffers.2.bind (· item))

def memory (dl : DiskLayer) : Item → Option Bytes := inBuffers (dl.buffer, dl.frozen)

/-- `node`, `account` and `storage` of a disk layer. -/
def read (dl : DiskLayer) (db : Store) (item : Item) : Except Error Bytes :=
  if dl.stale then .error .snapshotStale
  else
    match dl.memory item with
    | some blob => .ok blob
    | none => if item.covered db.genMarker then .ok (db.read item) else .error .notCoveredYet

/-- `buffer.commit` -/
def combine (buffer : Buffer) (changes : Changes) : Buffer := fun item =>
  (changes.find item).or (buffer item)

/-- The state history comes first: a history that is not the next one is refused. `flush` says
that the buffer is full or that flushing is forced. The new layer and the database after it; the
layer itself is stale from now on. -/
def commit (dl : DiskLayer) (db : Store) (bottom : DiffLayer) (flush : Bool) :
    Except Error (DiskLayer × Store) :=
  if bottom.id ≠ db.histories + 1 then .error .outOrderInsertion
  else
    let db := { db with histories := bottom.id }
    let combined := combine dl.buffer bottom.changes
    if flush then
      let db := db.waitFlush dl.frozen
      if db.noAsyncFlush then
        .ok (⟨bottom.root, bottom.id, fun _ => none, none, false⟩, db.flush combined)
      else
        .ok (⟨bottom.root, bottom.id, fun _ => none, some combined, false⟩, db)
    else
      .ok (⟨bottom.root, bottom.id, combined, dl.frozen, false⟩, db)

/-- The value a disk layer stands for. -/
def value (dl : DiskLayer) (db : Store) (item : Item) : Except Error Bytes :=
  (dl.memory item).elim
    (if item.covered db.genMarker then .ok (db.disk item) else .error .notCoveredYet) .ok

/-- The live and the frozen buffer after a commit. -/
def buffers (noAsyncFlush flush : Bool) (changes : Changes) (old : Buffer × Option Buffer) :
    Buffer × Option Buffer :=
  let combined := combine old.1 changes
  if flush then (fun _ => none, if noAsyncFlush then none else some combined)
  else (combined, old.2)

variable {dl : DiskLayer} {db : Store} {item : Item}

theorem read_eq_value (hdb : db.Coherent) (hlive : dl.stale = false) (item : Item) :
    dl.read db item = dl.value db item := by
  rw [read, hlive, if_neg Bool.false_ne_true, value, hdb.read_eq]
  cases dl.memory item <;> rfl

theorem value_of_covered (hcovered : item.covered db.genMarker = true) :
    dl.value db item = .ok ((dl.memory item).getD (db.disk item)) := by
  rw [value, hcovered, if_pos rfl]
  cases dl.memory item <;> rfl

/-- Beyond the marker a value is what is in memory. -/
theorem value_of_uncovered (hcovered : item.covered db.genMarker = false) :
    dl.value db item = (dl.memory item).elim (.error .notCoveredYet) .ok := by
  rw [value, hcovered, if_neg Bool.false_ne_true]

/-- What a commit of `changes` onto `dl` makes of the layer and the database. -/
structure Committed (dl : DiskLayer) (db : Store) (changes : Changes) (flush : Bool)
    (fresh : DiskLayer) (db' : Store) : Prop where
  live : fresh.stale = false
  coherent : db'.Coherent
  genMarker : db'.genMarker = db.genMarker
  noAsyncFlush : db'.noAsyncFlush = db.noAsyncFlush
  buffers : (fresh.buffer, fresh.frozen) =
    buffers db.noAsyncFlush flush changes (dl.buffer, dl.frozen)
  value : ∀ item, item.covered db.genMarker = true →
    fresh.value db' item = (changes.find item).elim (dl.value db item) .ok

theorem commit_spec {bottom : DiffLayer} (hid : bottom.id = db.histories + 1)
    (hdb : db.Coherent) (flush : Bool) :
    ∃ fresh db', dl.commit db bottom flush = .ok (fresh, db') ∧ fresh.root = bottom.root ∧
      fresh.id = bottom.id ∧ db'.histories = bottom.id ∧
      Committed dl db bottom.changes flush fresh db' := by
  have hhist : Store.Coherent { db with histories := bottom.id } := ⟨hdb.cached, hdb.uncovered⟩
  have hmerge (below : Except Error Bytes) (item : Item) (hbelow : below = .ok
      ((dl.buffer item).getD ((dl.frozen.bind (· item)).getD (db.disk item)))) :
      (bottom.changes.find item).elim below .ok = .ok ((combine dl.buffer bottom.changes item).getD
        ((dl.frozen.bind (· item)).getD (db.disk item))) := by
    rw [hbelow, combine]
    cases bottom.changes.find item <;> rfl
  have hold (item : Item) (hcovered : item.covered db.genMarker = true) : dl.value db item =
      .ok ((dl.buffer item).getD ((dl.frozen.bind (· item)).getD (db.disk item))) := by
    rw [value_of_covered hcovered]
    simp only [memory, inBuffers]
    cases dl.buffer item <;> rfl
  unfold commit
  rw [if_neg (by simpa using hid)]
  cases flush with
  | false =>
    refine ⟨_, _, rfl, rfl, rfl, rfl, rfl, hhist, rfl, rfl, rfl, fun item hcovered => ?_⟩
    rw [hmerge _ item (hold item hcovered)]
    have hmarker : item.covered (Store.genMarker { db with histories := bottom.id }) = true :=
      hcovered
    refine (value_of_covered hmarker).trans ?_
    simp only [memory, inBuffers]
    cases combine dl.buffer bottom.changes item <;> rfl
  | true =>
    have hwait := hhist.waitFlush dl.frozen
    have hdisk (item : Item) (hcovered : item.covered db.genMarker = true) :
        (Store.waitFlush { db with histories := bottom.id } dl.frozen).disk item =
          (dl.frozen.bind (· item)).getD (db.disk item) :=
      Store.waitFlush_disk _ hcovered
    obtain ⟨hhistories, hmarker, hconfig⟩ :=
      Store.waitFlush_fields { db with histories := bottom.id } dl.frozen
    dsimp only at hhistories hmarker hconfig ⊢
    rw [if_pos rfl]
    generalize Store.waitFlush { db with histories := bottom.id } dl.frozen = db₁ at *
    by_cases hasync : db₁.noAsyncFlush
    · refine ⟨_, _, if_pos hasync, rfl, rfl, hhistories, rfl, hwait.flush _, hmarker, hconfig, ?_,
        fun item hcovered => ?_⟩
      · simp only [DiskLayer.buffers, ← hconfig, hasync, if_true]
      · rw [hmerge _ item (hold item hcovered), ← hdisk item hcovered,
          ← Store.flush_disk _ (hmarker ▸ hcovered)]
        exact value_of_covered (hmarker ▸ hcovered)
    · refine ⟨_, _, if_neg hasync, rfl, rfl, hhistories, rfl, hwait, hmarker, hconfig, ?_,
        fun item hcovered => ?_⟩
      · simp only [DiskLayer.buffers, ← hconfig, hasync, if_true, Bool.false_eq_true, if_false]
      · rw [hmerge _ item (hold item hcovered), ← hdisk item hcovered]
        exact value_of_covered (hmarker ▸ hcovered)

end DiskLayer

end ChilizChain.PathDb
