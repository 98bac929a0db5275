import ChilizChain.PathDb.LayerTree

/-! A layer with the layers below it, down to a disk layer: what is read along the parent pointers,
and what persisting the diff layers does to the heap. -/

namespace ChilizChain.PathDb

open List Nat Layer Option

/-- The diff layers from a pointer down to the disk layer; state ids go down by one. -/
inductive Chain (heap : Heap) : Ref → List (Ref × DiffLayer) → Ref → Prop
  | disk {b : Ref} {dl : DiskLayer} (h : heap[b]? = some (.disk dl)) : Chain heap b [] b
  | diff {ref b : Ref} {dl : DiffLayer} {p : Layer} {path : List (Ref × DiffLayer)}
      (h : heap[ref]? = some (.diff dl)) (hparent : heap[dl.parent]? = some p)
      (hid : dl.id = p.stateID + 1) (below : Chain heap dl.parent path b) :
      Chain heap ref ((ref, dl) :: path) b

/-- The first of the layers that has a value. -/
def found (path : List (Ref × DiffLayer)) (item : Item) : Option Bytes :=
  path.findSome? fun entry => entry.2.changes.find item

/-- The value that is read through the layers on top of a disk layer. -/
def valueOver (path : List (Ref × DiffLayer)) (base : DiskLayer) (db : Store) (item : Item) :
    Except Error Bytes :=
  (found path item).elim (base.value db item) .ok

/-- The buffers of the disk layer once the layers on top of it are persisted. -/
def buffersOver (noAsyncFlush : Bool) (flushes : Hash → Bool) (path : List (Ref × DiffLayer))
    (base : DiskLayer) : Buffer × Option Buffer :=
  path.foldr (fun entry => DiskLayer.buffers noAsyncFlush (flushes entry.2.root) entry.2.changes)
    (base.buffer, base.frozen)

/-- Beyond the marker the new disk layer has the value if it has it in memory. -/
theorem value_eq_valueOver_iff {path : List (Ref × DiffLayer)} {base fresh : DiskLayer}
    {db db' : Store} {item : Item} (hmarker : db'.genMarker = db.genMarker)
    (hitem : item.covered db.genMarker = false) :
    fresh.value db' item = valueOver path base db item ↔
      fresh.memory item = (found path item).or (base.memory item) := by
  have hinj : ∀ a b : Option Bytes, a.elim (.error Error.notCoveredYet) Except.ok =
      b.elim (.error Error.notCoveredYet) Except.ok → a = b := by
    rintro (_ | a) (_ | b) h <;> cases h <;> rfl
  have hover : valueOver path base db item =
      ((found path item).or (base.memory item)).elim (.error .notCoveredYet) .ok := by
    rw [valueOver, DiskLayer.value_of_uncovered hitem]
    cases found path item <;> rfl
  rw [hover, DiskLayer.value_of_uncovered (hmarker ▸ hitem)]
  exact ⟨hinj _ _, fun h => by rw [h]⟩

section Chains

variable {heap heap' : Heap} {ref b : Ref} {path : List (Ref × DiffLayer)} {l : Layer}
  {base : DiskLayer} {db : Store} {item : Item}

section

variable (h : Chain heap ref path b)
include h

theorem Chain.end_disk : ∃ dl, heap[b]? = some (.disk dl) := by
  induction h with
  | disk h => exact ⟨_, h⟩
  | diff _ _ _ _ ih => exact ih

theorem Chain.unique :
    ∀ {path' : List (Ref × DiffLayer)}, Chain heap ref path' b → path' = path := by
  induction h with
  | disk h =>
    rintro path' (_ | ⟨h', _, _, _⟩)
    · rfl
    · cases h.symm.trans h'
  | diff h _ _ _ ih =>
    rintro path' (h' | ⟨h', _, _, below⟩)
    · cases h.symm.trans h'
    · cases h.symm.trans h'
      rw [ih below]

variable (hbase : heap[b]? = some (.disk base)) (hl : heap[ref]? = some l)

include hbase hl in
theorem Chain.stateID_eq : l.stateID = base.id + path.length := by
  induction h generalizing l with
  | disk h =>
    cases hl.symm.trans hbase
    rfl
  | diff h hparent hid _ ih =>
    cases hl.symm.trans h
    rw [stateID, hid, ih hbase hparent, length_cons, add_assoc]

include hbase hl in
theorem Chain.mem {x : Ref} {dl : DiffLayer} (hx : (x, dl) ∈ path) :
    heap[x]? = some (.diff dl) ∧ base.id < dl.id ∧ dl.id ≤ l.stateID := by
  induction h generalizing l with
  | disk => cases hx
  | diff h hparent hid below ih =>
    cases hl.symm.trans h
    rcases mem_cons.mp hx with hx | hx
    · cases hx
      have hlen := below.stateID_eq hbase hparent
      exact ⟨h, by omega, le_refl _⟩
    · obtain ⟨hat, hlow, hhigh⟩ := ih hbase hparent hx
      exact ⟨hat, hlow, hhigh.trans (by rw [stateID, hid]; omega)⟩

include hl in
theorem Chain.notMem_of_lt {x : Ref}
    {l' : Layer} (hx : heap[x]? = some l') (hlt : l.stateID < l'.stateID) :
    x ≠ b ∧ x ∉ path.map Prod.fst := by
  obtain ⟨base, hbase⟩ := h.end_disk
  constructor
  · rintro rfl
    have := h.stateID_eq hbase hl
    cases hx.symm.trans hbase
    simp only [stateID] at hlt this
    omega
  · intro hmem
    obtain ⟨⟨y, dl⟩, hy, rfl⟩ := mem_map.mp hmem
    obtain ⟨hat, -, hle⟩ := h.mem hbase hl hy
    cases hx.symm.trans hat
    exact absurd hle (not_le.mpr hlt)

include hbase in
theorem readFrom_chain {fuel : ℕ} (hfuel : path.length < fuel) :
    readFrom heap db item fuel ref =
      match found path item with
      | some blob => .ok blob
      | none => base.read db item := by
  induction h generalizing fuel with
  | disk h =>
    obtain ⟨n, rfl⟩ := exists_eq_add_one_of_ne_zero (ne_of_gt (zero_lt_of_lt hfuel))
    rw [readFrom, hbase]
    rfl
  | @diff ref b dl p path h hparent hid below ih =>
    obtain ⟨n, rfl⟩ := exists_eq_add_one_of_ne_zero (ne_of_gt (zero_lt_of_lt hfuel))
    have hn : path.length < n := by simpa using hfuel
    rw [readFrom, h]
    cases hf : dl.changes.find item with
    | some blob => simp only [found, findSome?_cons, hf]
    | none => simpa only [found, findSome?_cons, hf] using ih hbase hn

include hbase in
theorem rootsFrom_chain {fuel : ℕ} (hfuel : path.length < fuel) :
    rootsFrom heap fuel ref = path.map (·.2.root) ++ [base.root] := by
  induction h generalizing fuel with
  | disk h =>
    obtain ⟨n, rfl⟩ := exists_eq_add_one_of_ne_zero (ne_of_gt (zero_lt_of_lt hfuel))
    rw [rootsFrom, hbase]
    rfl
  | @diff ref b dl p path h hparent hid below ih =>
    obtain ⟨n, rfl⟩ := exists_eq_add_one_of_ne_zero (ne_of_gt (zero_lt_of_lt hfuel))
    have hn : path.length < n := by simpa using hfuel
    rw [rootsFrom, h]
    simp only [map_cons, cons_append, ih hbase hn]

end

end Chains

/-! ## Persisting -/

/-- The same layer, up to where a diff layer points and whether a disk layer is stale. -/
def Similar : Layer → Layer → Prop
  | .disk a, .disk b => b.root = a.root
  | .diff a, .diff b => b = { a with parent := b.parent }
  | _, _ => False

theorem Similar.refl (l : Layer) : Similar l l := by
  cases l <;> rfl

theorem Similar.trans {l₁ l₂ l₃ : Layer} (h : Similar l₁ l₂) (h' : Similar l₂ l₃) :
    Similar l₁ l₃ := by
  cases l₁ <;> cases l₂ <;> cases l₃ <;> simp only [Similar] at h h' ⊢
  · exact h'.trans h
  · rw [h', h]

theorem Similar.rootHash_eq {l l' : Layer} (h : Similar l l') : l'.rootHash = l.rootHash := by
  cases l <;> cases l' <;> simp only [Similar] at h
  · exact h
  · rw [h]
    rfl

/-- What a heap keeps while layers are persisted: all layers up to `Similar`, and the roots of the
parents. -/
structure Extends (heap heap' : Heap) : Prop where
  similar : ∀ {x : Ref} {l}, heap[x]? = some l → ∃ l', heap'[x]? = some l' ∧ Similar l l'
  parentRoot : ∀ {x : Ref} {dl p}, heap[x]? = some (.diff dl) → heap[dl.parent]? = some p →
    parentRoot heap' x = some p.rootHash

namespace Extends

variable {heap heap₁ heap₂ : Heap}

theorem trans (h : Extends heap heap₁) (h' : Extends heap₁ heap₂) : Extends heap heap₂ where
  similar hx := by
    obtain ⟨l₁, hx₁, hs₁⟩ := h.similar hx
    obtain ⟨l₂, hx₂, hs₂⟩ := h'.similar hx₁
    exact ⟨l₂, hx₂, hs₁.trans hs₂⟩
  parentRoot := by
    intro x dl p hx hp
    obtain ⟨l₁, hx₁, hs₁⟩ := h.similar hx
    have hroot := h.parentRoot hx hp
    cases l₁ with
    | disk => exact hs₁.elim
    | diff dl₁ =>
      simp only [PathDb.parentRoot, hx₁, map_eq_some_iff] at hroot
      obtain ⟨p₁, hp₁, hroot⟩ := hroot
      rw [← hroot]
      exact h'.parentRoot hx₁ hp₁

end Extends

/-- The effect of persisting `dl` at `ref`, where `touched` are the layers below it. -/
structure Persisted (heap : Heap) (db : Store) (touched : List Ref)
    (buffers : Buffer × Option Buffer) (value : Item → Except Error Bytes) (ref : Ref)
    (dl : DiffLayer) (heap' : Heap) (db' : Store) (n : Ref) : Prop where
  fresh : ∃ fresh, heap'[n]? = some (.disk fresh) ∧ fresh.root = dl.root ∧ fresh.id = dl.id ∧
    fresh.stale = false ∧ (fresh.buffer, fresh.frozen) = buffers ∧
    ∀ item, item.covered db.genMarker = true → fresh.value db' item = value item
  genMarker : db'.genMarker = db.genMarker
  noAsyncFlush : db'.noAsyncFlush = db.noAsyncFlush
  new : heap.length ≤ n
  histories : db'.histories = dl.id
  coherent : db'.Coherent
  frame : ∀ x < heap.length, x ≠ ref → x ∉ touched → heap'[x]? = heap[x]?
  heaps : Extends heap heap'
  -- the persisted layer is left with a stale layer below it
  orphan : ∃ p old, heap'[ref]? = some (.diff { dl with parent := p }) ∧
    heap'[p]? = some (.disk old) ∧ old.stale = true

section Steps

variable {heap : Heap} {db : Store} {ref : Ref} {dl : DiffLayer} {disk : DiskLayer}
  (flushes : Hash → Bool)

theorem diffToDisk_persisted (href : heap[ref]? = some (.diff dl))
    (hdisk : heap[dl.parent]? = some (.disk disk)) (hid : dl.id = db.histories + 1)
    (hdb : db.Coherent) : ∃ heap' db' n, diffToDisk flushes heap db dl = .ok (heap', db', n) ∧
      Persisted heap db [dl.parent] (DiskLayer.buffers db.noAsyncFlush (flushes dl.root) dl.changes
          (disk.buffer, disk.frozen))
        (fun item => (dl.changes.find item).elim (disk.value db item) .ok) ref dl heap' db' n := by
  obtain ⟨fresh, db', hcommit, hroot, hfid, hhist, hspec⟩ :=
    disk.commit_spec hid hdb (flushes dl.root)
  have hrun : diffToDisk flushes heap db dl = .ok
      (heap.set dl.parent (.disk { disk with stale := true }) ++ [.disk fresh], db',
        heap.length) := by
    simp only [diffToDisk, hdisk, hcommit]
  have hlt : ∀ {x : Ref} {l}, heap[x]? = some l → x < heap.length := fun h =>
    (List.getElem?_eq_some_iff.mp h).1
  have hset : ∀ x < heap.length, x ≠ dl.parent →
      (heap.set dl.parent (.disk { disk with stale := true }) ++ [.disk fresh])[x]? = heap[x]? := by
    intro x hx hne
    rw [getElem?_append_left (by simpa using hx), getElem?_set_ne hne.symm]
  have hold : (heap.set dl.parent (.disk { disk with stale := true }) ++
      [Layer.disk fresh])[dl.parent]? = some (.disk { disk with stale := true }) := by
    have := hlt hdisk
    rw [getElem?_append_left (by simpa using this), getElem?_set_self this]
  have hne : ref ≠ dl.parent := by
    intro he
    rw [he, hdisk] at href
    cases href
  have hsimilar : ∀ {x : Ref} {l}, heap[x]? = some l → ∃ l', (heap.set dl.parent
      (.disk { disk with stale := true }) ++ [Layer.disk fresh])[x]? = some l' ∧ Similar l l' := by
    intro x l hx
    by_cases hxp : x = dl.parent
    · subst hxp
      cases hdisk.symm.trans hx
      exact ⟨_, hold, rfl⟩
    · exact ⟨l, (hset x (hlt hx) hxp).trans hx, .refl l⟩
  refine ⟨_, _, _, hrun, ⟨⟨fresh, ?_, hroot, hfid, hspec.live, hspec.buffers, hspec.value⟩,
    hspec.genMarker, hspec.noAsyncFlush, le_refl _, hhist, hspec.coherent, ?_, ⟨hsimilar, ?_⟩,
    dl.parent, { disk with stale := true }, ?_, hold, rfl⟩⟩
  · rw [getElem?_append_right (by simp)]
    simp
  · intro x hx _ hxt
    exact hset x hx (by simpa using hxt)
  · intro x d p hx hp
    have hxp : x ≠ dl.parent := by
      rintro rfl
      cases hdisk.symm.trans hx
    obtain ⟨p', hp', hsim⟩ := hsimilar hp
    simp only [parentRoot, (hset x (hlt hx) hxp).trans hx, hp', map_some, hsim.rootHash_eq]
  · exact (hset ref (hlt href) hne).trans href

theorem extends_relink {n : Ref} {p q : Layer} (href : heap[ref]? = some (.diff dl))
    (hp : heap[dl.parent]? = some p) (hq : heap[n]? = some q) (hroot : q.rootHash = p.rootHash) :
    Extends heap (heap.set ref (.diff { dl with parent := n })) := by
  have hlt : ref < heap.length := (List.getElem?_eq_some_iff.mp href).1
  have hsimilar : ∀ {x : Ref} {l}, heap[x]? = some l →
      ∃ l', (heap.set ref (.diff { dl with parent := n }))[x]? = some l' ∧ Similar l l' := by
    intro x l hx
    by_cases hxr : x = ref
    · subst hxr
      cases href.symm.trans hx
      exact ⟨_, getElem?_set_self hlt, rfl⟩
    · exact ⟨l, (getElem?_set_ne (Ne.symm hxr)).trans hx, .refl l⟩
  refine ⟨hsimilar, ?_⟩
  intro x d p' hx hp'
  by_cases hxr : x = ref
  · subst hxr
    cases href.symm.trans hx
    cases hp.symm.trans hp'
    obtain ⟨q', hq', hsim⟩ := hsimilar hq
    simp only [parentRoot, getElem?_set_self hlt, hq', map_some, hsim.rootHash_eq, hroot]
  · obtain ⟨q', hq', hsim⟩ := hsimilar hp'
    simp only [parentRoot, (getElem?_set_ne (Ne.symm hxr)).trans hx, hq', map_some,
      hsim.rootHash_eq]

end Steps

theorem persist_chain (flushes : Hash → Bool) {heap : Heap} {db : Store} {ref b : Ref}
    {dl : DiffLayer} {base : DiskLayer} {path : List (Ref × DiffLayer)} {fuel : ℕ}
    (hchain : Chain heap ref ((ref, dl) :: path) b) (hbase : heap[b]? = some (.disk base))
    (hid : base.id = db.histories) (hdb : db.Coherent) (hfuel : path.length < fuel) :
    ∃ heap' db' n, persist flushes fuel heap db ref = .ok (heap', db', n) ∧
      Persisted heap db (b :: path.map Prod.fst)
        (buffersOver db.noAsyncFlush flushes ((ref, dl) :: path) base)
        (valueOver ((ref, dl) :: path) base db) ref dl heap' db' n := by
  induction path generalizing ref dl fuel with
  | nil =>
    obtain ⟨n, rfl⟩ := exists_eq_add_one_of_ne_zero (ne_of_gt (zero_lt_of_lt hfuel))
    cases hchain with
    | diff href hparent hpid below =>
      cases below with
      | disk hdisk =>
        cases hbase.symm.trans hdisk
        cases hbase.symm.trans hparent
        have hnext : dl.id = db.histories + 1 := by rw [hpid, stateID, hid]
        obtain ⟨heap', db', m, hrun, hspec⟩ :=
          diffToDisk_persisted flushes href hbase hnext hdb
        refine ⟨heap', db', m, ?_, ?_⟩
        · simp only [persist, href, hbase, hrun]
        · have hvalue : valueOver [(ref, dl)] base db =
              fun item => (dl.changes.find item).elim (base.value db item) .ok := by
            funext item
            cases hf : dl.changes.find item <;> simp [valueOver, found, hf]
          simpa only [hvalue, map_nil, buffersOver, foldr_cons, foldr_nil] using hspec
  | cons entry path ih =>
    obtain ⟨n, rfl⟩ := exists_eq_add_one_of_ne_zero (ne_of_gt (zero_lt_of_lt hfuel))
    cases hchain with
    | diff href hparent hpid below =>
      cases below with
      | @diff _ _ pl _ _ hpl hpparent hppid pbelow =>
        cases hpl.symm.trans hparent
        have hpchain : Chain heap dl.parent ((dl.parent, pl) :: path) b :=
          .diff hpl hpparent hppid pbelow
        have hn : path.length < n := by simpa using hfuel
        obtain ⟨heap₁, db₁, m₁, hrun₁, hspec₁⟩ := ih hpchain hn
        obtain ⟨fresh₁, hat₁, hroot₁, hfid₁, -, hbuffers₁, hvalue₁⟩ := hspec₁.fresh
        have hlt : ref < heap.length := (List.getElem?_eq_some_iff.mp href).1
        -- the layer itself is not below its parent, so it is still as it was
        have hlow : stateID (.diff pl) < stateID (.diff dl) := by
          show pl.id < dl.id
          rw [hpid]
          exact lt_succ_self _
        obtain ⟨hrb, hrpath⟩ := hpchain.notMem_of_lt hpl href hlow
        have hrp : ref ≠ dl.parent := by simp at hrpath; exact hrpath.1
        have href₁ : heap₁[ref]? = some (.diff dl) := by
          rw [hspec₁.frame ref hlt hrp (by simp at hrpath ⊢; exact ⟨hrb, hrpath.2⟩), href]
        have hmr : m₁ ≠ ref := ne_of_gt (lt_of_lt_of_le hlt hspec₁.new)
        set heap₂ := heap₁.set ref (.diff { dl with parent := m₁ }) with hheap₂
        have hlt₁ : ref < heap₁.length := (List.getElem?_eq_some_iff.mp href₁).1
        have href₂ : heap₂[ref]? = some (.diff { dl with parent := m₁ }) :=
          getElem?_set_self hlt₁
        have hat₂ : heap₂[m₁]? = some (.disk fresh₁) :=
          (getElem?_set_ne (Ne.symm hmr)).trans hat₁
        have hnext : dl.id = db₁.histories + 1 := by rw [hpid, hspec₁.histories]; rfl
        obtain ⟨heap₃, db₃, m₃, hrun₃, hspec₃⟩ :=
          diffToDisk_persisted flushes href₂ hat₂ hnext hspec₁.coherent
        obtain ⟨p₁, hp₁, hsim₁⟩ := hspec₁.heaps.similar hpl
        have hlink : Extends heap₁ heap₂ := by
          refine extends_relink href₁ hp₁ hat₁ ?_
          rw [hsim₁.rootHash_eq]
          exact hroot₁
        have hlen₁ : heap.length ≤ heap₁.length :=
          hspec₁.new.trans (List.getElem?_eq_some_iff.mp hat₁).1.le
        have hlen₂ : heap₂.length = heap₁.length := length_set ..
        refine ⟨heap₃, db₃, m₃, ?_, ?_⟩
        · simp only [persist, href, hpl, hrun₁]
          exact hrun₃
        · refine ⟨?_, hspec₃.genMarker.trans hspec₁.genMarker,
            hspec₃.noAsyncFlush.trans hspec₁.noAsyncFlush, ?_, hspec₃.histories, hspec₃.coherent,
            ?_, (hspec₁.heaps.trans hlink).trans hspec₃.heaps, hspec₃.orphan⟩
          · obtain ⟨fresh₃, hat₃, hroot₃, hfid₃, hlive₃, hbuffers₃, hvalue₃⟩ := hspec₃.fresh
            refine ⟨fresh₃, hat₃, hroot₃, hfid₃, hlive₃, ?_, fun item hitem => ?_⟩
            · rw [hbuffers₃, hbuffers₁, hspec₁.noAsyncFlush]
              rfl
            · rw [hvalue₃ item (hspec₁.genMarker ▸ hitem), hvalue₁ item hitem]
              cases hf : dl.changes.find item <;> simp [valueOver, found, hf]
          · exact hlen₁.trans (hlen₂ ▸ hspec₃.new)
          · intro x hx hxr hxt
            simp only [map_cons, mem_cons, not_or] at hxt
            have hxm : x ≠ m₁ := Nat.ne_of_lt (lt_of_lt_of_le hx hspec₁.new)
            rw [hspec₃.frame x (by omega) hxr (by simpa using hxm),
              getElem?_set_ne (Ne.symm hxr)]
            exact hspec₁.frame x hx hxt.2.1 (by rw [mem_cons, not_or]; exact ⟨hxt.1, hxt.2.2⟩)

end ChilizChain.PathDb
