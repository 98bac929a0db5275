import ChilizChain.Parlia.PathIndependence

/-! Does a rejected header leave a trace? Before the Snake8 activation time it does not: the
verdict on every later header is the same as if it had never been submitted. A header with an
embedded parent time does leave one when its parent is not in the store: the turn length of 50 is
written into the cached snapshot of its parent before the embedded time is checked. -/

namespace ChilizChain

open Stateful List Parlia Nat

/-- A call of `verifyHeader`. `VerifyHeader` has no explicit parents; `VerifyHeaders` gives to
each header of its batch the ones before it. -/
structure Call where
  chain : ChainStore
  now : ℕ
  header : Header
  parents : List Header

def Call.run (p : Parlia) (call : Call) : EngineM Unit :=
  p.verifyHeader call.chain call.now call.header call.parents

/-- The verdicts on a sequence of calls. -/
def outcomes (p : Parlia) : List Call → Engine → List (Except Err Unit)
  | [], _ => []
  | call :: rest, e => (exec (call.run p) e).1 :: outcomes p rest (exec (call.run p) e).2

/-- The engine that a sequence of calls leaves behind. -/
def engineAfter (p : Parlia) (calls : List Call) (e : Engine) : Engine :=
  calls.foldl (fun e call => (exec (call.run p) e).2) e

/-- The header stands on the last block of a grounded branch, whose time is before the activation
time: as the store has it, or else as the header claims. -/
structure OnTop (p : Parlia) (g : Header) (hg : g.number = 0) (U : Set Header)
    (anchors : Set Hash) (chain : ChainStore) (header : Header) (H parents : List Header) :
    Prop where
  number : header.number = H.length + 1
  parent : header.parentHash = p.k.hash (tip g H)
  ground : Grounded p g hg U anchors chain H parents
  anchored : ∀ i ≤ Parlia.kAncestorGenerationDepth, Anchored p g anchors (H.drop i)
  flag : tip g H ∈ chain.genesis :: chain.headers ∨
    ∀ ts, extractSnake8ParentTimestamp header p.c = some ts → p.c.isSnake8 ts = false

/-- The calls that read nothing from the cache, or only what does not depend on it. -/
inductive Admissible (p : Parlia) (g : Header) (hg : g.number = 0) (U : Set Header)
    (anchors : Set Hash) (call : Call) : Prop
  /-- Refused before any snapshot is looked up. -/
  | early (err : Err) (refused : Parlia.verifyStandalone call.now call.header = .error err)
  | genesis (number : call.header.number = 0)
  /-- The parent is a block that nobody knows. -/
  | orphan (parents : call.parents = []) (number : 2 ≤ call.header.number)
      (unknown : ∀ h ∈ U, p.k.hash h ≠ call.header.parentHash)
      (missing : ∀ h ∈ call.chain.genesis :: call.chain.headers,
        p.k.hash h ≠ call.header.parentHash)
  | grounded (H : List Header)
      (onTop : OnTop p g hg U anchors call.chain call.header H call.parents)

section

variable {p : Parlia} {g : Header} {hg : g.number = 0} {U : Set Header} {anchors A : Set Hash}
  {chain : ChainStore}

/-! ## The fork flag -/

theorem getHeaderByHash_mem {k : Crypto} {hash : Hash} {x : Header}
    (h : chain.getHeaderByHash k hash = some x) :
    x ∈ chain.genesis :: chain.headers ∧ k.hash x = hash := by
  unfold ChainStore.getHeaderByHash at h
  exact ⟨mem_of_find?_eq_some h, by simpa using find?_some h⟩

theorem isSnake8Enabled_eq_false (hU : BeforeSnake8 p g U) (hW : chain.Within p.k g U)
    {hd x : Header} (hx : x ∈ U)
    (hparent : hd.parentHash = p.k.hash x ∨ hd.parentHash = x.parentHash)
    (hflag : (∃ x ∈ chain.genesis :: chain.headers, p.k.hash x = hd.parentHash) ∨
      ∀ ts, extractSnake8ParentTimestamp hd p.c = some ts → p.c.isSnake8 ts = false) :
    p.isSnake8Enabled chain hd = false := by
  unfold isSnake8Enabled
  split
  · rename_i parent hfound
    obtain ⟨hstored, hhash⟩ := getHeaderByHash_mem hfound
    exact hU.inactive parent (hW.mem_all hU.genesis_mem hstored hx (by rwa [hhash]))
  · rename_i hnone
    have hembedded : ∀ ts, extractSnake8ParentTimestamp hd p.c = some ts →
        p.c.isSnake8 ts = false := by
      rcases hflag with ⟨x, hx, hhash⟩ | hflag
      · have := find?_eq_none.mp hnone x hx
        simp [hhash] at this
      · exact hflag
    split
    · rfl
    · exact hembedded _ ‹_›

theorem isSnake8Enabled_of_mem (hU : BeforeSnake8 p g U) (hW : chain.Within p.k g U) {h : Header}
    (hmem : h ∈ U) : p.isSnake8Enabled chain h = false :=
  isSnake8Enabled_eq_false hU hW hmem (.inr rfl) (.inr (hU.embedded h hmem))

/-! ## Parents -/

theorem Supplied.trimParents {H ps : List Header} (hsupplied : Supplied chain H ps) :
    Supplied chain H.tail (Parlia.trimParents ps) := by
  obtain ⟨F, S, rfl, rfl, hstored⟩ := hsupplied
  cases F with
  | nil => exact ⟨[], S.tail, rfl, rfl, fun x hx => hstored x (mem_of_mem_tail hx)⟩
  | cons f F => exact ⟨F, S, rfl, by simp [Parlia.trimParents], hstored⟩

/-- Without explicit parents `verifyVoteAttestation` passes the parent itself. -/
theorem Supplied.orTip {H ps : List Header} (hsupplied : Supplied chain H ps)
    (hne : H ≠ []) : Supplied chain H (if ps = [] then [tip g H] else ps) := by
  split_ifs with hparents
  · obtain ⟨F, S, rfl, rfl, hstored⟩ := hsupplied
    obtain rfl := reverse_eq_nil_iff.mp hparents
    rw [nil_append] at hne ⊢
    obtain ⟨h, S, rfl⟩ := exists_cons_of_ne_nil hne
    exact ⟨[h], S, rfl, rfl, fun x hx => hstored x (mem_cons_of_mem h hx)⟩
  · exact hsupplied

theorem findTarget_ok (hU : BeforeSnake8 p g U) (hW : chain.Within p.k g U) {targetNumber : ℕ}
    {targetHash : Hash} {ancestor : Header} {rest : List Header} :
    ∀ {depth : ℕ} {H ps : List Header}, Branch p.k g U H → Supplied chain H.tail ps →
      p.findTarget chain targetNumber targetHash depth (tip g H) ps = .ok (some (ancestor, rest)) →
      ∃ i < depth, ancestor = tip g (H.drop i) ∧ targetNumber = ancestor.number ∧
        Supplied chain (H.drop i).tail rest
  | 0, _, _, _, _, h => by cases h
  | depth + 1, H, ps, hH, hsupplied, h => by
    unfold findTarget at h
    split_ifs at h with htarget
    · simp only [Except.pure_eq_ok, Except.ok.injEq, Option.some.injEq, Prod.mk.injEq] at h
      obtain ⟨rfl, rfl⟩ := h
      exact ⟨0, succ_pos _, rfl, htarget.1, hsupplied⟩
    · obtain ⟨parent, hparent, h⟩ := Except.bind_eq_ok.mp h
      have hmem : ∀ x ∈ ps, x ∈ U := fun x hx =>
        hH.mem_of_mem x (mem_of_mem_tail (hsupplied.mem x hx))
      cases H with
      | nil =>
        exact absurd hparent
          (getParent_genesis hU.genesis_number hU.genesis_mem hU.number_lt hW hmem)
      | cons b H =>
        obtain rfl := getParent_eq_tip hU.genesis_mem hU.hash_injOn hW hH.tail hH.parentHash_eq
          hmem hparent
        obtain ⟨i, hi, hancestor, hnumber, hrest⟩ :=
          findTarget_ok hU hW hH.tail hsupplied.trimParents h
        exact ⟨i + 1, succ_lt_succ hi, hancestor, hnumber, hrest⟩

theorem targetNumber_pos_of_checkAttestation {attestation : VoteAttestation} {u : Unit}
    (h : checkAttestation attestation = .ok u) : 0 < attestation.data.targetNumber.toNat := by
  exact zero_lt_of_lt (UInt64.lt_iff_toNat_lt.mp (checkAttestation_ok h))

/-! ## Verdicts on a grounded branch -/

namespace OnTop

variable {hd : Header} {H ps : List Header}

section

variable (hU : BeforeSnake8 p g U)
include hU

section

variable (h : OnTop p g hg U A chain hd H ps)
include h

theorem snapshot (extraHeader : Option Header) : Answers (Consistent p g hg U A)
      (p.snapshot chain (hd.number - 1) hd.parentHash ps
        (p.isSnake8Enabled chain hd) extraHeader) (canonical p g hg H) := by
  have hflag : p.isSnake8Enabled chain hd = false := by
    refine isSnake8Enabled_eq_false hU h.ground.within (h.ground.branch.tip_mem hU.genesis_mem)
      (.inl h.parent) ?_
    exact h.flag.imp_left fun htip => ⟨_, htip, h.parent.symm⟩
  rw [hflag, h.number, Nat.add_sub_cancel, h.parent]
  exact h.ground.snapshot_answers hU extraHeader

theorem epochLength : Determined (Consistent p g hg U A) (p.epochLength chain hd ps) := by
  unfold Parlia.epochLength
  rw [if_neg (by rw [h.number]; exact succ_ne_zero _)]
  exact .bind ⟨_, h.snapshot hU none⟩ fun snap => .pure snap.epochLength

theorem getJustifiedNumberAndHash :
    Determined (Consistent p g hg U A) (p.getJustifiedNumberAndHash chain (tip g H)
      (if ps = [] then [tip g H] else ps)) := by
  have hH := h.ground.branch
  have htip := hH.tip_mem hU.genesis_mem
  have hmem : ∀ x ∈ if ps = [] then [tip g H] else ps, x ∈ U := by
    split_ifs
    · intro x hx
      rwa [mem_singleton.mp hx]
    · exact fun x hx => hH.mem_of_mem x (h.ground.supplied.mem x hx)
  have hanswer := snapshot_answers hU h.ground.within hH h.ground.anchored
    h.ground.supplied.orTip hmem h.ground.checkpoints (some (tip g H))
  unfold Parlia.getJustifiedNumberAndHash
  rw [isSnake8Enabled_of_mem hU h.ground.within htip, hH.tip_number hU.genesis_number]
  exact .bind ⟨_, hanswer⟩ fun snap => .pure _

theorem targetSnapshot {targetNumber : ℕ} {targetHash : Hash}
    {ancestor : Header} {rest : List Header} (hpos : 0 < targetNumber)
    (hfound : p.findTarget chain targetNumber targetHash (p.getAncestorGenerationDepth hd)
      (tip g H) (Parlia.trimParents ps) = .ok (some (ancestor, rest))) :
    Determined (Consistent p g hg U A)
      (p.snapshot chain (ancestor.number - 1) ancestor.parentHash rest
        (p.isSnake8Enabled chain ancestor) (some ancestor)) := by
  obtain ⟨i, hi, hancestor, hnumber, hsupplied⟩ :=
    findTarget_ok hU h.ground.within h.ground.branch h.ground.supplied.trimParents hfound
  have hdepth : p.getAncestorGenerationDepth hd ≤ kAncestorGenerationDepth := by
    unfold getAncestorGenerationDepth
    split_ifs <;> decide
  have hbranch : Branch p.k g U (H.drop i) := by
    have := h.ground.branch
    rw [← take_append_drop i H] at this
    exact this.of_append
  obtain ⟨b, B, hdrop⟩ : ∃ b B, H.drop i = b :: B := by
    refine exists_cons_of_ne_nil fun hnil => ?_
    rw [hnil, tip_nil] at hancestor
    rw [hancestor, hU.genesis_number] at hnumber
    omega
  rw [hdrop] at hbranch hancestor hsupplied
  rw [tip_cons] at hancestor
  subst hancestor
  have hbelow : B = H.drop (i + 1) := by
    rw [← tail_drop, hdrop]
    rfl
  have hsuffix : B <:+ H := hbelow ▸ drop_suffix _ _
  rw [isSnake8Enabled_of_mem hU h.ground.within (hbranch.mem_of_mem _ mem_cons_self),
    hbranch.number_eq, Nat.add_sub_cancel, hbranch.parentHash_eq]
  exact ⟨_, snapshot_answers hU h.ground.within hbranch.tail
    (hbelow ▸ h.anchored (i + 1) (by omega)) (fun _ => hsupplied)
    (fun x hx => hbranch.tail.mem_of_mem x (hsupplied.mem x hx))
    (fun x H' hsub => h.ground.checkpoints x H' (hsub.trans hsuffix)) _⟩

theorem verifyVoteAttestation :
    Determined (Consistent p g hg U A) (p.verifyVoteAttestation chain hd ps) := by
  unfold Parlia.verifyVoteAttestation
  refine .bind (h.epochLength hU) fun epochLength => ?_
  refine .bind (.ofExcept _) fun found => ?_
  cases found with
  | none => exact .pure _
  | some attestation =>
    dsimp only
    refine .bind_of_answers (fun e he => ⟨rfl, he⟩) fun _ hcheck => ?_
    refine .bind_of_answers (fun e he => ⟨rfl, he⟩) fun parent hparent => ?_
    obtain rfl := getParent_eq_tip hU.genesis_mem hU.hash_injOn h.ground.within h.ground.branch
      h.parent (fun x hx => h.ground.branch.mem_of_mem x (h.ground.supplied.mem x hx)) hparent
    refine .bind (.mapError _ (h.getJustifiedNumberAndHash hU)) fun justified => ?_
    have hpos := targetNumber_pos_of_checkAttestation hcheck
    split_ifs with hsource
    · exact ⟨_, Answers.bind_error fun e he => ⟨rfl, he⟩⟩
    · refine .bind_of_answers (fun e he => ⟨rfl, he⟩) fun target htarget => ?_
      cases target with
      | none => exact .throw _
      | some target =>
        exact .bind (h.targetSnapshot hU hpos htarget) fun snap => .ofExcept _

theorem verifySeal : Determined (Consistent p g hg U A) (p.verifySeal chain hd ps) := by
  unfold Parlia.verifySeal
  rw [if_neg (by rw [h.number]; exact succ_ne_zero _)]
  exact .bind ⟨_, h.snapshot hU _⟩ fun snap => .ofExcept _

theorem verifyCascadingFields :
    Determined (Consistent p g hg U A) (p.verifyCascadingFields chain hd ps) := by
  unfold Parlia.verifyCascadingFields
  rw [if_neg (by rw [h.number]; exact succ_ne_zero _)]
  refine .bind (.ofExcept _) fun parent => .bind (.ofExcept _) fun _ => ?_
  refine .bind ⟨_, h.snapshot hU _⟩ fun snap => .bind (.ofExcept _) fun _ => ?_
  refine .bind (.ofExcept _) fun _ => .bind (.attempt (h.verifyVoteAttestation hU)) fun _ => ?_
  exact .bind (.ofExcept _) fun _ => h.verifySeal hU

end

theorem verifyHeader (now : ℕ) (h : OnTop p g hg U A chain hd H ps) :
    Determined (Consistent p g hg U A) (p.verifyHeader chain now hd ps) := by
  unfold Parlia.verifyHeader
  refine .bind (.ofExcept _) fun _ => .bind (h.epochLength hU) fun _ => ?_
  refine .bind (.ofExcept _) fun _ => .bind (.ofExcept _) fun _ => ?_
  refine .bind (.ofExcept _) fun _ => .bind (.ofExcept _) fun _ => h.verifyCascadingFields hU

end

end OnTop

/-! ## Runs -/

theorem snapshot_unknown (hU : BeforeSnake8 p g U) {number : ℕ}
    (hnumber : number ≠ 0) {hash : Hash} (hunknown : ∀ h ∈ U, p.k.hash h ≠ hash)
    (hmissing : ∀ h ∈ chain.genesis :: chain.headers, p.k.hash h ≠ hash) (isSnake8Fork : Bool)
    (extraHeader : Option Header) : Answers (Consistent p g hg U A)
      (p.snapshot chain number hash [] isSnake8Fork extraHeader) (.error .errUnknownAncestor) := by
  intro e he
  have hforeign : ∀ s, ¬∃ H, Branch p.k g U H ∧ hash = p.k.hash (tip g H) ∧
      canonical p g hg H = .ok s := by
    rintro s ⟨H, hH, hhash, -⟩
    exact hunknown _ (hH.tip_mem hU.genesis_mem) hhash.symm
  have hrecent : e.recentSnaps.lookup hash = none :=
    Option.eq_none_iff_forall_ne_some.mpr fun s hs => hforeign s (he.recent hash s hs)
  have hstored : e.db[hash]? = none :=
    Option.eq_none_iff_forall_ne_some.mpr fun s hs => hforeign s (he.stored hash s hs)
  have hgather : p.gatherHeader chain number hash [] = .error .errUnknownAncestor := by
    have hget : chain.getHeader p.k hash number = none := by
      unfold ChainStore.getHeader
      rw [find?_eq_none]
      intro x hx
      simp [hmissing x hx]
    simp [gatherHeader, hget]
  have hle : ([] : List Header).length ≤ p.fullImmutabilityThreshold := zero_le _
  have hfind : exec (p.findBase chain number hash ([] : List Header).length isSnake8Fork) e =
      (.ok none, { e with recentSnaps := (e.recentSnaps.get hash).2 }) := by
    unfold findBase
    rw [exec_bind_ok (exec_getRecent _), hrecent]
    dsimp only
    rw [exec_bind_ok (exec_storedBase _ _ _), hstored, Option.map_none, ite_self]
    dsimp only
    rw [exec_bind_ok (exec_trustedBase_of_pos hnumber hle _)]
    rfl
  have hwalk : exec (p.walk chain isSnake8Fork number hash [] []) e =
      (.error .errUnknownAncestor, { e with recentSnaps := (e.recentSnaps.get hash).2 }) := by
    unfold walk
    rw [exec_bind_ok hfind]
    dsimp only
    rw [exec_bind_ofExcept, hgather]
  have happlied : exec (p.appliedSnapshot chain number hash [] isSnake8Fork) e =
      (.error .errUnknownAncestor, { e with recentSnaps := (e.recentSnaps.get hash).2 }) :=
    exec_bind_error hwalk
  unfold snapshot
  rw [exec_bind_error happlied]
  exact ⟨rfl, he.get hash⟩

/-- **The verdict on an admissible call cannot be seen to depend on the engine.** -/
theorem Admissible.determined (hU : BeforeSnake8 p g U) {call : Call}
    (h : Admissible p g hg U A call) : Determined (Consistent p g hg U A) (call.run p) := by
  unfold Call.run
  cases h with
  | early err refused =>
    unfold Parlia.verifyHeader
    exact ⟨_, Answers.bind_error fun e he => ⟨refused, he⟩⟩
  | genesis number =>
    unfold Parlia.verifyHeader Parlia.epochLength Parlia.verifyCascadingFields
    rw [if_pos number, if_pos number]
    refine .bind (.ofExcept _) fun _ => .bind (.pure _) fun _ => ?_
    refine .bind (.ofExcept _) fun _ => .bind (.ofExcept _) fun _ => ?_
    exact .bind (.ofExcept _) fun _ => .bind (.ofExcept _) fun _ => .pure _
  | orphan ps number unknown missing =>
    unfold Parlia.verifyHeader
    refine .bind (.ofExcept _) fun _ => ?_
    have hpos : call.header.number - 1 ≠ 0 := by omega
    have hanswer : Answers (Consistent p g hg U A)
        (p.epochLength call.chain call.header call.parents) (.error .errUnknownAncestor) := by
      unfold Parlia.epochLength
      rw [if_neg (by omega), ps]
      exact (snapshot_unknown hU hpos unknown missing _ none).bind_error
    exact ⟨_, hanswer.bind_error⟩
  | grounded H onTop => exact onTop.verifyHeader hU call.now

variable {e : Engine}

theorem Admissible.consistent (hU : BeforeSnake8 p g U) {call : Call}
    (h : Admissible p g hg U A call) (he : Consistent p g hg U A e) :
    Consistent p g hg U A (exec (call.run p) e).2 :=
  (h.determined hU).preserves e he

theorem outcomes_eq (hU : BeforeSnake8 p g U) {calls : List Call}
    (hcalls : ∀ call ∈ calls, Admissible p g hg U A call) {e' : Engine}
    (he : Consistent p g hg U A e) (he' : Consistent p g hg U A e') :
    outcomes p calls e = outcomes p calls e' := by
  induction calls generalizing e e' with
  | nil => rfl
  | cons call calls ih =>
    have hcall := hcalls call mem_cons_self
    have hrest := ih (fun c hc => hcalls c (mem_cons_of_mem call hc))
      (hcall.consistent hU he) (hcall.consistent hU he')
    rw [outcomes, outcomes, hrest, (hcall.determined hU).result_eq he he']

theorem Consistent.engineAfter (hU : BeforeSnake8 p g U) {calls : List Call}
    (hcalls : ∀ call ∈ calls, Admissible p g hg U A call) (he : Consistent p g hg U A e) :
    Consistent p g hg U A (engineAfter p calls e) := by
  induction calls generalizing e with
  | nil => exact he
  | cons call calls ih =>
    exact ih (fun c hc => hcalls c (mem_cons_of_mem call hc))
      ((hcalls call mem_cons_self).consistent hU he)

/-- **A rejected header leaves no trace** in a run of admissible calls: the verdicts on all later
headers are those of the run without it. An accepted header leaves none either. -/
theorem submitted_header_leaves_no_trace (hU : BeforeSnake8 p g U) {e : Engine}
    (he : Consistent p g hg U anchors e) {before after : List Call} {submitted : Call}
    (hbefore : ∀ call ∈ before, Admissible p g hg U anchors call)
    (hsubmitted : Admissible p g hg U anchors submitted)
    (hafter : ∀ call ∈ after, Admissible p g hg U anchors call) :
    outcomes p after (exec (submitted.run p) (engineAfter p before e)).2 =
      outcomes p after (engineAfter p before e) := by
  have hconsistent := he.engineAfter hU hbefore
  exact outcomes_eq hU hafter (hsubmitted.consistent hU hconsistent) hconsistent

end

namespace Sample

def call (stored parents : List Header) (header : Header) : Call :=
  ⟨chain stored, 100, header, parents⟩

theorem early_admissible {hd : Header} (hnumber : hd.number = 2)
    (hparent : hd.parentHash = crypto.hash block1) :
    Admissible engine genesis rfl early ∅ (call fiveBlocks [] hd) := by
  refine .grounded [block1] ⟨hnumber, hparent,
    early_grounded early_branch.tail (by simp [fiveBlocks]) (by decide), fun i _ => ?_, .inl ?_⟩
  · refine ⟨[block1].drop i, [], (append_nil _).symm, ?_, .inl rfl⟩
    rw [length_drop]
    exact (sub_le _ _).trans (by decide)
  · exact mem_cons_of_mem _ mem_cons_self

/-- A header on block 1 that claims a parent time after the activation. -/
def forged : Header :=
  child block1 (addr 1) (frequencySection { block1 with time := 5000 } [])

end Sample

open Sample in
/-- Block 2 with a wrong difficulty, then block 2 itself. -/
theorem submitted_header_leaves_no_trace_sample :
    outcomes engine [call fiveBlocks [] block2]
      (exec ((call fiveBlocks [] { block2 with difficulty := some 1 }).run engine)
        (engineAfter engine [] Engine.fresh)).2 =
    outcomes engine [call fiveBlocks [] block2] (engineAfter engine [] Engine.fresh) :=
  submitted_header_leaves_no_trace early_beforeSnake8 .fresh (by simp)
    (early_admissible rfl rfl) (by
      intro c hc
      rw [mem_singleton.mp hc]
      exact early_admissible rfl rfl)

open Sample in
/-- Block 1 is accepted and not yet in the store. A forged child of it is refused, but the turn
length of 50 stays in the cached snapshot of block 1, and block 2 is then refused too. -/
theorem rejected_header_leaves_trace :
    (let e := engineAfter engine [call [] [] block1] Engine.fresh
     let e' := (exec ((call [] [block1] forged).run engine) e).2
     outcomes engine [call [] [] block1] Engine.fresh = [.ok ()] ∧
     outcomes engine [call [] [block1] forged] e = [.error .errInvalidSnake8Extra] ∧
     outcomes engine [call [] [block1] block2] e = [.ok ()] ∧
     outcomes engine [call [] [block1] block2] e' = [.error .errWrongDifficulty]) := by
  decide +kernel

end ChilizChain
