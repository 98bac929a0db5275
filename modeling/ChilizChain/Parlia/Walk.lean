import ChilizChain.Parlia.Canonical

/-! Snapshot retrieval in general: the walk back along a branch to a block whose snapshot the engine
has, and the way forward again. `R` says which snapshots belong to a branch and `E` which errors;
what retrieval needs of them is collected in `Retrievable`, and is enough for every call to end
with one or the other. -/

namespace ChilizChain

open Stateful Parlia List Std.ExtTreeMap

section Definitions

variable (p : Parlia) (g : Header) (U : Set Header) (R : List Header → Snapshot → Prop)
  (E : List Header → Err → Prop)

/-- Each snapshot of the engine belongs to a branch that ends in its block, and those of the
anchors are on disk. -/
structure Carries (anchors : Set Hash) (e : Engine) : Prop where
  recent : ∀ hash s, e.recentSnaps.lookup hash = some s →
    ∃ H, Branch p.k g U H ∧ hash = p.k.hash (tip g H) ∧ R H s
  stored : ∀ hash s, e.db[hash]? = some s →
    ∃ H, Branch p.k g U H ∧ hash = p.k.hash (tip g H) ∧ R H s
  anchored : ∀ hash ∈ anchors, hash ∈ e.db

/-- The walk back from the branch meets an anchor or the genesis block before it has collected
more headers than may be reorganised. -/
def Anchored (anchors : Set Hash) (H : List Header) : Prop :=
  ∃ N A, H = N ++ A ∧ N.length ≤ p.fullImmutabilityThreshold ∧
    (A = [] ∨ A.length % checkpointInterval = 0 ∧ p.k.hash (tip g A) ∈ anchors)

/-- A result for the branch. -/
def Ends (H : List Header) : Except Err Snapshot → Prop
  | .ok s => R H s
  | .error err => E H err

/-- What retrieval rests on, where `S` says which explicit parents go with a branch. -/
structure Retrievable (S : List Header → List Header → Prop) (chain : ChainStore)
    (isSnake8Fork : Bool) : Prop where
  genesis_number : g.number = 0
  genesis_mem : g ∈ U
  hash_injOn : Set.InjOn p.k.hash U
  within : chain.Within p.k g U
  genesis : p.k.hash g ≠ FixedBytes.zero 32 → Ends R E []
    (p.checkpointSnapshot 0 isSnake8Fork g (p.k.hash g) defaultBlockInterval p.c.epoch)
  unhashed : p.k.hash g = FixedBytes.zero 32 → E [] .errUnknownAncestor
  filed : ∀ {H s}, Branch p.k g U H → R H s → s.hash = p.k.hash (tip g H)
  loaded : ∀ {H s}, Branch p.k g U H → R H s → R H (s.loaded p.c isSnake8Fork)
  touched : ∀ {H s}, Branch p.k g U H → R H s → R H { s with isSnake8Fork := isSnake8Fork }
  cons : ∀ {h H err}, E H err → E (h :: H) err
  gather : ∀ {h H parents}, Branch p.k g U (h :: H) → S (h :: H) parents → (∀ x ∈ parents, x ∈ U) →
    match p.gatherHeader chain (h :: H).length (p.k.hash h) parents with
    | .ok (header, rest) => header = h ∧ S H rest ∧ ∀ x ∈ rest, x ∈ U
    | .error err => E (h :: H) err

/-- What one stop of the walk can end with. -/
def BaseFound (anchors : Set Hash) (H : List Header) :
    Except Err (Option (Snapshot × Option Hash)) → Prop
  | .ok (some (s, cachedAt)) => R H s ∧ (cachedAt = none ∨ cachedAt = some (p.k.hash (tip g H)))
  | .ok none => (H = [] → p.k.hash g = FixedBytes.zero 32) ∧
      ¬(H.length % checkpointInterval = 0 ∧ p.k.hash (tip g H) ∈ anchors)
  | .error err => E H err

/-- Where the walk back along the branch `H` can end, `headers` being collected already. -/
def WalkEnds (H headers : List Header) : Except Err Parlia.Base → Prop
  | .ok base => ∃ N A, H = N ++ A ∧ R A base.snap ∧ base.headers = N.reverse ++ headers ∧
      (∀ x ∈ base.parents, x ∈ U) ∧
      (base.cachedAt = none ∨ base.cachedAt = some (p.k.hash (tip g A)))
  | .error err => E H err

end Definitions

variable {p : Parlia} {g : Header} {U : Set Header} {R : List Header → Snapshot → Prop}
  {E : List Header → Err → Prop} {S : List Header → List Header → Prop} {anchors A : Set Hash}
  {chain : ChainStore} {fork : Bool} {e : Engine} {H ps : List Header} {s : Snapshot}

@[simp] theorem exec_getRecent (hash : Hash) :
    exec (getRecent hash) e =
      (.ok (e.recentSnaps.lookup hash), { e with recentSnaps := (e.recentSnaps.get hash).2 }) := by
  rw [← Lru.get_fst]
  rfl

@[simp] theorem exec_addRecent (hash : Hash) (s : Snapshot) :
    exec (addRecent hash s) e = (.ok ⟨⟩, { e with recentSnaps := e.recentSnaps.add hash s }) := rfl

@[simp] theorem exec_storeSnapshot (s : Snapshot) :
    exec (storeSnapshot s) e = (.ok ⟨⟩, { e with db := e.db.insert s.hash s }) := rfl

namespace Carries

theorem fresh : Carries p g U R ∅ Engine.fresh where
  recent hash s h := by simp [Engine.fresh] at h
  stored hash s h := by simp [Engine.fresh] at h
  anchored hash h := h.elim

theorem get (he : Carries p g U R A e) (hash : Hash) :
    Carries p g U R A { e with recentSnaps := (e.recentSnaps.get hash).2 } where
  recent x s h := he.recent x s (by rwa [Lru.lookup_get] at h)
  stored := he.stored
  anchored := he.anchored

theorem add (he : Carries p g U R A e) (hH : Branch p.k g U H) (hs : R H s) :
    Carries p g U R A { e with recentSnaps := e.recentSnaps.add (p.k.hash (tip g H)) s } where
  recent x t h := by
    by_cases hx : x = p.k.hash (tip g H)
    · subst hx
      rw [Lru.lookup_add_self] at h
      exact ⟨H, hH, rfl, Option.some.inj h ▸ hs⟩
    · exact he.recent x t (Lru.lookup_of_lookup_add hx h)
  stored := he.stored
  anchored := he.anchored

theorem store (he : Carries p g U R A e) (hH : Branch p.k g U H)
    (hhash : s.hash = p.k.hash (tip g H)) (hs : R H s) :
    Carries p g U R A { e with db := e.db.insert s.hash s } where
  recent := he.recent
  stored x t h := by
    rw [Std.ExtTreeMap.getElem?_insert] at h
    split at h
    · rename_i hx
      obtain rfl := Std.LawfulEqCmp.eq_of_compare hx
      exact ⟨H, hH, hhash, Option.some.inj h ▸ hs⟩
    · exact he.stored x t h
  anchored x hx := mem_insert.mpr (.inr (he.anchored x hx))

end Carries

/-! ## The walk back -/

theorem exec_storedBase (number : ℕ) (hash : Hash) (fork : Bool) :
    exec (p.storedBase number hash fork) e =
      (.ok (if number % checkpointInterval = 0 then
        (e.db[hash]?).map (·.loaded p.c fork) else none), e) := by
  unfold storedBase
  split_ifs <;> rfl

variable {collected : ℕ}

theorem exec_trustedBase_of_pos {number : ℕ} (hpos : number ≠ 0)
    (hle : collected ≤ p.fullImmutabilityThreshold) (fork : Bool) :
    exec (p.trustedBase chain number collected fork) e = (.ok none, e) := by
  unfold trustedBase
  rw [if_neg (by omega)]
  rfl

theorem checkpointFor_zero : p.checkpointFor chain 0 =
    some (chain.genesis, p.k.hash chain.genesis, defaultBlockInterval, p.c.epoch) := rfl

theorem gatherHeader_error {number : ℕ} {hash : Hash} {err : Err}
    (h : p.gatherHeader chain number hash ps = .error err) : err = .errUnknownAncestor := by
  unfold gatherHeader at h
  split at h
  · split_ifs at h
    · exact (Except.error.inj h).symm
    · cases h
  · split at h
    · cases h
    · exact (Except.error.inj h).symm

theorem WalkEnds.cons (hE : ∀ {h H err}, E H err → E (h :: H) err) {h : Header}
    {headers : List Header} {r : Except Err Base}
    (hr : WalkEnds p g U R E H (h :: headers) r) : WalkEnds p g U R E (h :: H) headers r := by
  cases r with
  | error err => exact hE hr
  | ok base =>
    obtain ⟨N, A, rfl, hsnap, hheaders, hparents, hcached⟩ := hr
    refine ⟨h :: N, A, rfl, hsnap, ?_, hparents, hcached⟩
    rw [hheaders, reverse_cons, append_assoc]
    rfl

namespace Retrievable

variable (hr : Retrievable p g U R E S chain fork)
include hr

section

variable (hH : Branch p.k g U H)
include hH

theorem of_hash (h : ∃ T, Branch p.k g U T ∧ p.k.hash (tip g H) = p.k.hash (tip g T) ∧ R T s) :
    R H s := by
  obtain ⟨T, hT, htip, hs⟩ := h
  rw [hH.unique hr.genesis_number hr.genesis_mem hr.hash_injOn hT htip]
  exact hs

theorem trustedBase (hle : collected ≤ p.fullImmutabilityThreshold)
    (hanchor : ¬(H.length % checkpointInterval = 0 ∧ p.k.hash (tip g H) ∈ A)) :
    Triple (Carries p g U R A)
      (do return (← p.trustedBase chain H.length collected fork).map (·, none))
      fun r e => Carries p g U R A e ∧ BaseFound p g R E A H r := by
  intro e he
  cases H with
  | cons h H =>
    have hpos : (h :: H).length ≠ 0 := Nat.succ_ne_zero _
    rw [exec_bind_ok (exec_trustedBase_of_pos hpos hle fork)]
    exact ⟨he, fun h => absurd h (cons_ne_nil _ _), hanchor⟩
  | nil =>
    unfold trustedBase
    simp only [length_nil, true_or, if_true, checkpointFor_zero, hr.within.genesis_eq]
    split_ifs with hzero
    · exact ⟨he, fun _ => hzero, hanchor⟩
    · simp only [bind_assoc]
      rw [exec_bind_ofExcept]
      have hgenesis := hr.genesis hzero
      cases hsnap : p.checkpointSnapshot 0 fork g (p.k.hash g) defaultBlockInterval
        p.c.epoch with
      | error err =>
        rw [hsnap] at hgenesis
        exact ⟨he, hgenesis⟩
      | ok s =>
        rw [hsnap] at hgenesis
        exact ⟨he.store hH (hr.filed hH hgenesis) hgenesis, hgenesis, .inl rfl⟩

/-- **One stop of the walk**: it ends the walk with a snapshot of the branch, or goes on. -/
theorem findBase (hle : collected ≤ p.fullImmutabilityThreshold) : Triple (Carries p g U R A)
      (p.findBase chain H.length (p.k.hash (tip g H)) collected fork)
      fun r e => Carries p g U R A e ∧ BaseFound p g R E A H r := by
  intro e he
  unfold Parlia.findBase
  rw [exec_bind_ok (exec_getRecent _)]
  cases hrecent : e.recentSnaps.lookup (p.k.hash (tip g H)) with
  | some s => exact ⟨he.get _, hr.of_hash hH (he.recent _ _ hrecent), .inr rfl⟩
  | none =>
    dsimp only
    rw [exec_bind_ok (exec_storedBase _ _ _)]
    split_ifs with hinterval
    · cases hdb : e.db[p.k.hash (tip g H)]? with
      | some s =>
        exact ⟨he.get _, hr.loaded hH (hr.of_hash hH (he.stored _ _ hdb)), .inl rfl⟩
      | none =>
        refine hr.trustedBase hH hle (fun hanchor => ?_) _ (he.get _)
        have hmem := he.anchored _ hanchor.2
        rw [mem_iff_isSome_getElem?, hdb] at hmem
        cases hmem
    · exact hr.trustedBase hH hle (fun hanchor => hinterval hanchor.1) _ (he.get _)

theorem walk_stop {headers : List Header} (hparents : ∀ x ∈ ps, x ∈ U)
    (hle : headers.length ≤ p.fullImmutabilityThreshold)
    (hgoOn : BaseFound p g R E A H (.ok none) → Triple (Carries p g U R A)
      (do
        let (hd, ps) ← Stateful.ofExcept
          (p.gatherHeader chain H.length (p.k.hash (tip g H)) ps)
        match H.length with
        | 0 => throw .errUnknownAncestor
        | number + 1 =>
          p.walk chain fork number hd.parentHash ps (hd :: headers))
      fun r e => Carries p g U R A e ∧ WalkEnds p g U R E H headers r) :
    Triple (Carries p g U R A)
      (p.walk chain fork H.length (p.k.hash (tip g H)) ps headers)
      fun r e => Carries p g U R A e ∧ WalkEnds p g U R E H headers r := by
  intro e he
  have hfind := hr.findBase hH hle e he
  unfold walk
  rw [exec_bind]
  rcases hexec : exec (p.findBase chain H.length (p.k.hash (tip g H)) headers.length fork) e
    with ⟨r, e'⟩
  rw [hexec] at hfind
  obtain ⟨he', hfound⟩ := hfind
  rcases r with err | _ | ⟨s, cachedAt⟩
  · exact ⟨he', hfound⟩
  · exact hgoOn hfound e' he'
  · exact ⟨he', [], H, rfl, hfound.1, rfl, hparents, hfound.2⟩

end

/-- **The walk back along a branch** ends at a snapshot of an earlier block of the branch, with the
headers above it collected. The induction is on the headers above the anchor. -/
theorem walk {A : List Header}
    (hanchor : A = [] ∨ A.length % checkpointInterval = 0 ∧ p.k.hash (tip g A) ∈ anchors) :
    ∀ {N ps headers : List Header}, Branch p.k g U (N ++ A) → S (N ++ A) ps →
      (∀ x ∈ ps, x ∈ U) → headers.length + N.length ≤ p.fullImmutabilityThreshold →
      Triple (Carries p g U R anchors)
        (p.walk chain fork (N ++ A).length (p.k.hash (tip g (N ++ A))) ps headers)
        fun r e => Carries p g U R anchors e ∧ WalkEnds p g U R E (N ++ A) headers r := by
  intro N
  induction N with
  | nil =>
    intro ps headers hH hsupplied hparents hle
    rw [nil_append] at hH ⊢
    refine hr.walk_stop hH hparents (by omega) fun ⟨hzero, hmissing⟩ => ?_
    rcases hanchor with rfl | hanchor
    · -- the genesis block has no snapshot only if its hash is the zero hash
      have hunhashed := hr.unhashed (hzero rfl)
      intro e he
      rw [exec_bind_ofExcept]
      cases hgather : p.gatherHeader chain ([] : List Header).length (p.k.hash (tip g [])) ps
        with
      | error err => exact ⟨he, gatherHeader_error hgather ▸ hunhashed⟩
      | ok gathered => exact ⟨he, hunhashed⟩
    · exact absurd hanchor hmissing
  | cons h N ih =>
    intro ps headers hH hsupplied hparents hle
    rw [cons_append] at hH hsupplied ⊢
    refine hr.walk_stop hH hparents (by omega) fun _ e he => ?_
    have hgather := hr.gather hH hsupplied hparents
    rw [tip_cons, exec_bind_ofExcept]
    rcases hexec : p.gatherHeader chain (h :: (N ++ A)).length (p.k.hash h) ps
      with err | ⟨hd, rest⟩
    · rw [hexec] at hgather
      exact ⟨he, hgather⟩
    · rw [hexec] at hgather
      obtain ⟨rfl, hrest, hsubset⟩ := hgather
      have hcollected : (hd :: headers).length + N.length ≤ p.fullImmutabilityThreshold := by
        simp only [length_cons] at hle ⊢
        omega
      obtain ⟨hcarries, hends⟩ := ih hH.tail hrest hsubset hcollected e he
      dsimp only [length_cons]
      rw [hH.parentHash_eq]
      exact ⟨hcarries, hends.cons hr.cons⟩

/-! ## The way forward -/

theorem touchBase {A : List Header} (hA : Branch p.k g U A) {base : Base} (hsnap : R A base.snap)
    (hcached : base.cachedAt = none ∨ base.cachedAt = some (p.k.hash (tip g A)))
    (he : Carries p g U R anchors e) : ∃ e', exec (Parlia.touchBase fork base) e = (.ok ⟨⟩, e') ∧
      Carries p g U R anchors e' := by
  unfold Parlia.touchBase
  rcases hcached with hnone | hsome
  · rw [hnone]
    exact ⟨e, rfl, he⟩
  · rw [hsome]
    exact ⟨_, exec_addRecent _ _, he.add hA (hr.touched hA hsnap)⟩

theorem keepSnapshot (hH : Branch p.k g U H) (hs : R H s) (isNew : Bool)
    (he : Carries p g U R A e) :
    ∃ e', exec (Parlia.keepSnapshot s isNew) e = (.ok ⟨⟩, e') ∧ Carries p g U R A e' := by
  have hhash := hr.filed hH hs
  have hadd : exec (addRecent s.hash s) e = _ := exec_addRecent _ _
  unfold Parlia.keepSnapshot
  rw [exec_bind_ok hadd, hhash]
  split_ifs
  · exact ⟨_, exec_storeSnapshot _, (he.add hH hs).store hH hhash hs⟩
  · exact ⟨_, rfl, he.add hH hs⟩

/-- **Retrieval answers with a snapshot of the branch**, whatever the engine holds, where `apply`
leads from one snapshot of the branch to another. -/
theorem snapshot (hH : Branch p.k g U H) (hanchored : Anchored p g anchors H) (hS : S H ps)
    (hparents : ∀ x ∈ ps, x ∈ U) (extraHeader : Option Header)
    (happly : ∀ {N A ps s}, H = N ++ A → (∀ x ∈ ps, x ∈ U) → R A s →
      Ends R E H ((s.apply p.k p.c chain ps N.reverse fork).map
        (p.imposeSnake8 fork extraHeader))) : Triple (Carries p g U R anchors)
      (p.snapshot chain H.length (p.k.hash (tip g H)) ps fork extraHeader)
      fun r e => Carries p g U R anchors e ∧ Ends R E H r := by
  obtain ⟨N, A, rfl, hlength, hanchor⟩ := hanchored
  intro e he
  have hcollected : ([] : List Header).length + N.length ≤ p.fullImmutabilityThreshold := by
    simpa using hlength
  obtain ⟨he₁, hends⟩ := hr.walk hanchor hH hS hparents hcollected e he
  unfold snapshot appliedSnapshot
  simp only [bind_assoc, pure_bind]
  rcases hexec : exec (p.walk chain fork (N ++ A).length (p.k.hash (tip g (N ++ A)))
    ps []) e with ⟨err | base, e₁⟩
  · rw [hexec] at he₁ hends
    rw [exec_bind_error hexec]
    exact ⟨he₁, hends⟩
  rw [hexec] at he₁ hends
  rw [exec_bind_ok hexec]
  obtain ⟨M, B, hsplit, hbase, hheaders, hrest, hcached⟩ := hends
  have hB : Branch p.k g U B := (hsplit ▸ hH).of_append
  obtain ⟨e₂, htouch, he₂⟩ := hr.touchBase hB hbase hcached he₁
  have happlied := happly hsplit hrest hbase
  rw [exec_bind_ok htouch, exec_bind_ofExcept, hheaders, append_nil]
  cases hresult : base.snap.apply p.k p.c chain base.parents M.reverse fork with
  | error err =>
    rw [hresult] at happlied
    exact ⟨he₂, happlied⟩
  | ok snap =>
    rw [hresult] at happlied
    obtain ⟨e₃, hkeep, he₃⟩ := hr.keepSnapshot hH happlied (decide (M.reverse ≠ [])) he₂
    dsimp only
    rw [exec_bind_ok hkeep]
    exact ⟨he₃, happlied⟩

end Retrievable

end ChilizChain
