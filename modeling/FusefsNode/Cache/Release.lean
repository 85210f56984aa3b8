import FusefsNode.Cache.Unmount

/-!
# The last release of a node, and the next lookup

When a caller drops the last vnode reference to a node, `fusefs_inactive` calls
`fusefs_addfree`, which decides whether the cache keeps the node.  On an indexed node with no
`r_count`, run alone, the decision is exactly the destroy condition of `fusefs_addfree`
(`Cache.keeps`):

* kept (`release_pools`): no `r_error`, the vfs mounted, and `fusenodenew` within
  `nfusenode`: four steps link the node at the tail of the freelist, still indexed, and
  change nothing else;
* destroyed (`release_destroys`): otherwise seven steps take it out of its index
  (`sn_rmhash_locked`), drop its path (`sn_inactive`) and free it (`sn_destroy_node`).

`release_last` puts the two together.  A kept node is what the freelist is for:
`release_then_lookup` looks its name up again and gets the same node back, not a new one,
with the cache as it was before the release.
-/

namespace FusefsNode

namespace Cache

/-- The cache keeps a node with no `r_count` when `fusefs_addfree`'s destroy condition fails:
no `r_error`, the vfs is not unmounted, and `fusenodenew` is within `nfusenode`. -/
def keeps (s : Cache) (np : Node) : Prop :=
  ¬ ((s.node np).rError ≠ 0 ∨ (s.mount (s.node np).vVfsp).vfsUnmounted ∨ s.nfusenode < s.fusenodenew)

instance (s : Cache) (np : Node) : Decidable (s.keeps np) := inferInstanceAs (Decidable (¬ _))

/-- The cache once a caller has given up its reference to `np`. -/
def dropHeld (s : Cache) (np : Node) : Cache := { s with held := s.held.erase np }

end Cache

section Release

variable {s : Cache} {t : Tid} {np : Node}

/-- `fusefs_addfree`'s unlocked test of `r_count`, on a node that has none. -/
theorem afCount_step (ht : t < s.threads.length) (hc : (s.node np).rCount = 0) (k : AddfreeCont) :
    (s.setPc t (.afCount np k)).step (.run t) = some (s.setPc t (.afHashed np k)) := by
  rw [step_setPc ht, Cache.runPc, if_pos (show ((s.setPc t (.afCount np k)).node np).rCount = 0 from hc),
    Cache.setPc_setPc]

/-- `fusefs_addfree`'s unlocked test of `RHASHED` in the destroy condition, on an indexed node. -/
theorem afHashed_step (ht : t < s.threads.length) (hh : (s.node np).rHashed) (k : AddfreeCont) :
    (s.setPc t (.afHashed np k)).step (.run t) = some (s.setPc t (.afOthers np k)) := by
  rw [step_setPc ht, Cache.runPc, if_pos (show ((s.setPc t (.afHashed np k)).node np).rHashed from hh),
    Cache.setPc_setPc]

/-- The rest of the destroy condition: `r_error`, `VFS_UNMOUNTED`, `fusenodenew > nfusenode`. -/
theorem afOthers_step (ht : t < s.threads.length) (k : AddfreeCont) :
    (s.setPc t (.afOthers np k)).step (.run t) =
      some (s.setPc t (if s.keeps np then .afPool np k else .afDestroy np k)) := by
  rw [step_setPc ht, Cache.runPc, Cache.setPc_setPc]
  by_cases h : s.keeps np
  · rw [if_pos h]; exact congrArg (fun pc => some (s.setPc t pc)) (if_neg h)
  · rw [if_neg h]; exact congrArg (fun pc => some (s.setPc t pc)) (if_pos (not_not.mp h))

/-- The release of the last reference hands the node to `fusefs_addfree`. -/
theorem release_last_step (hidle : s.idle t) (hheld : np ∈ s.held) (hv : (s.node np).vCount = 1) :
    s.step (.release t np) = some ((s.dropHeld np).setPc t (.afCount np .inactive)) := by
  have h : s.step (.release t np) = some ((s.dropHeld np).vnReleInactive t np) := if_pos ⟨hidle, hheld⟩
  rw [h, Cache.vnReleInactive, if_neg (show ¬ 1 < ((s.dropHeld np).node np).vCount by
    simp [Cache.dropHeld, hv])]

/-- **A kept node is pooled.**  The last release of an indexed node with no `r_count`, run
alone, links it at the tail of the freelist in four steps of `fusefs_addfree`. -/
theorem release_pools (hq : Quiet s t) (hidle : s.idle t) (hheld : np ∈ s.held)
    (hv : (s.node np).vCount = 1) (hc : (s.node np).rCount = 0) (hh : (s.node np).rHashed)
    (hkeep : s.keeps np) :
    s.run (.release t np :: List.replicate 4 (.run t)) =
      some (((s.dropHeld np).addfreeInsert np).setPc t .idle) := by
  obtain ⟨pc, hpc, -⟩ := idle_iff.mp hidle
  have ht : t < (s.dropHeld np).threads.length := (List.getElem?_eq_some_iff.mp hpc).1
  have hq' : Quiet (s.dropHeld np) t := hq
  have hv' : ∀ pc, ¬ 1 < (((s.dropHeld np).setPc t pc).node np).vCount := fun _ => by
    show ¬ 1 < (s.node np).vCount; omega
  have h₃ : ((s.dropHeld np).setPc t (.afOthers np .inactive)).step (.run t) = _ :=
    afOthers_step ht .inactive
  rw [if_pos (show (s.dropHeld np).keeps np from hkeep)] at h₃
  have h₄ : ((s.dropHeld np).setPc t (.afPool np .inactive)).step (.run t) =
      some (((s.dropHeld np).addfreeInsert np).setPc t .idle) := by
    have hlf : ∀ m, ((s.dropHeld np).setPc t (.afPool np .inactive)).lockFree m :=
      fun _ => lockFree_iff.mpr fun _ _ hu => by simp [hq'.lock_setPc hpc hu rfl]
    rw [step_setPc ht, Cache.runPc, if_pos (hlf _), if_neg (hv' _)]
    exact congrArg some (Cache.setPc_setPc ((s.dropHeld np).addfreeInsert np) t _ _)
  simp only [Cache.run, List.replicate, release_last_step hidle hheld hv, afCount_step ht hc,
    afHashed_step ht hh, h₃, h₄, Option.some_bind]

/-- **A node the cache does not keep is destroyed.**  The last release of an indexed node with
no `r_count`, run alone, when `fusefs_addfree`'s destroy condition holds, unlinks it from its
index, drops its path and frees it, in seven steps of `fusefs_addfree`. -/
theorem release_destroys (hq : Quiet s t) (hidle : s.idle t) (hheld : np ∈ s.held)
    (hv : (s.node np).vCount = 1) (hc : (s.node np).rCount = 0) (hh : (s.node np).rHashed)
    (hkeep : ¬ s.keeps np) :
    s.run (.release t np :: List.replicate 7 (.run t)) =
      some (((((s.dropHeld np).snRmhashLocked np).snInactive np).snDestroyNode np).setPc t .idle) := by
  obtain ⟨pc, hpc, -⟩ := idle_iff.mp hidle
  have ht : t < (s.dropHeld np).threads.length := (List.getElem?_eq_some_iff.mp hpc).1
  have hq' : Quiet (s.dropHeld np) t := hq
  have hv' : ∀ pc, ¬ 1 < (((s.dropHeld np).setPc t pc).node np).vCount := fun _ => by
    show ¬ 1 < (s.node np).vCount; omega
  set s₁ := (s.dropHeld np).snRmhashLocked np
  have h₃ : ((s.dropHeld np).setPc t (.afOthers np .inactive)).step (.run t) = _ :=
    afOthers_step ht .inactive
  rw [if_neg (show ¬ (s.dropHeld np).keeps np from hkeep)] at h₃
  have h₄ : ((s.dropHeld np).setPc t (.afDestroy np .inactive)).step (.run t) =
      some ((s.dropHeld np).setPc t (.afUnhash np .inactive)) := by
    rw [step_setPc ht, Cache.runPc, if_pos (show (((s.dropHeld np).setPc t
      (.afDestroy np .inactive)).node np).rHashed from hh), Cache.setPc_setPc]
  have h₅ : ((s.dropHeld np).setPc t (.afUnhash np .inactive)).step (.run t) =
      some (s₁.setPc t (.afInactive np .inactive)) := by
    have hlf : ∀ m, ((s.dropHeld np).setPc t (.afUnhash np .inactive)).lockFree m :=
      fun _ => lockFree_iff.mpr fun _ _ hu => by simp [hq'.lock_setPc hpc hu rfl]
    rw [step_setPc ht, Cache.runPc, if_pos (hlf _), if_neg (hv' _)]
    exact congrArg some (Cache.setPc_setPc s₁ t _ _)
  have h₆ : (s₁.setPc t (.afInactive np .inactive)).step (.run t) =
      some ((s₁.snInactive np).setPc t (.afRecheck np .inactive)) := by
    rw [step_setPc (s := s₁) ht, Cache.runPc]
    exact congrArg some (Cache.setPc_setPc (s₁.snInactive np) t _ _)
  have h₇ : ((s₁.snInactive np).setPc t (.afRecheck np .inactive)).step (.run t) =
      some (((s₁.snInactive np).snDestroyNode np).setPc t .idle) := by
    rw [step_setPc (s := s₁.snInactive np) ht, Cache.runPc, if_neg (show ¬ 1 < (((s₁.snInactive np).setPc t
      (.afRecheck np .inactive)).node np).vCount by simp [s₁, Cache.dropHeld, hv])]
    exact congrArg some (Cache.setPc_setPc ((s₁.snInactive np).snDestroyNode np) t _ _)
  simp only [Cache.run, List.replicate, release_last_step hidle hheld hv, afCount_step ht hc,
    afHashed_step ht hh, h₃, h₄, h₅, h₆, h₇, Option.some_bind]

/-- **The last release of an indexed node** with no `r_count`, run alone, returns with the
caller's reference given up, and either pools the node when the cache keeps it, the state
otherwise exactly as before, or destroys it: out of its index, freed, `fusenodenew` one lower,
the freelist and every other node as they were. -/
theorem release_last {mi : Mount} (hs : Inv s) (hq : Quiet s t) (hidle : s.idle t)
    (hheld : np ∈ s.held) (hv : (s.node np).vCount = 1) (hc : (s.node np).rCount = 0)
    (hidx : np ∈ (s.mount mi).fmiHashAvl) :
    ∃ n s', s.run (.release t np :: List.replicate n (.run t)) = some s' ∧
      s'.threads[t]? = some .idle ∧ s'.held = s.held.erase np ∧
      (s.keeps np → s' = { s.setPc t .idle with
        held := s.held.erase np, fusefreelist := s.fusefreelist ++ [np] }) ∧
      (¬ s.keeps np → s'.fusefreelist = s.fusefreelist ∧ (s'.node np).live = false ∧
        np ∉ (s'.mount mi).fmiHashAvl ∧ s'.fusenodenew = s.fusenodenew - 1 ∧
        ∀ n, n ≠ np → s'.node n = s.node n) := by
  obtain ⟨pc, hpc, -⟩ := idle_iff.mp hidle
  obtain ⟨-, hh, hm, -⟩ := hs.linked mi np hidx
  by_cases hk : s.keeps np
  · exact ⟨4, _, release_pools hq hidle hheld hv hc hh hk, setPc_self hpc, rfl,
      fun _ => rfl, absurd hk⟩
  · refine ⟨7, _, release_destroys hq hidle hheld hv hc hh hk, setPc_self hpc, rfl, (absurd · hk),
      fun _ => ⟨rfl, by simp, ?_, by simp [Cache.dropHeld], fun n hn => by simp [Cache.dropHeld, hn]⟩⟩
    simpa [Cache.dropHeld, hm] using (hs.index_nodup mi).not_mem_erase

/-- Thread 0 holds node 0, which it created under "a". -/
def heldA : Cache := ((Cache.init 1 false 1).run holdA).getD (Cache.init 1 false 1)

theorem reachable_heldA : Reachable heldA :=
  (Reachable.init 1 false 1).run (show (Cache.init 1 false 1).run holdA = some heldA from rfl)

theorem heldA_facts : heldA.threads = [.returned (some 0) true] ∧ heldA.held = [0] ∧
    (heldA.node 0).vCount = 1 ∧ (heldA.node 0).rCount = 0 ∧ (heldA.mount 0).fmiHashAvl = [0] ∧
    (heldA.node 0).nRpath = some (findcreateRpath [] 0 [97]) ∧ heldA.keeps 0 := by
  decide

theorem release_last_heldA :
    Inv heldA ∧ Quiet heldA 0 ∧ heldA.idle 0 ∧ 0 ∈ heldA.held ∧ (heldA.node 0).vCount = 1 ∧
      (heldA.node 0).rCount = 0 ∧ 0 ∈ (heldA.mount 0).fmiHashAvl ∧
      ∃ n s', heldA.run (.release 0 0 :: List.replicate n (.run 0)) = some s' ∧
        s'.threads[0]? = some .idle ∧ s'.held = [] ∧ s'.fusefreelist = heldA.fusefreelist ++ [0] := by
  obtain ⟨hth, hheld, hv, hc, hidx, -, hk⟩ := heldA_facts
  have hs := reachable_heldA.inv
  have hq := quiet_of_threads_eq hth
  have hidle : heldA.idle 0 := by simp [Cache.idle, hth, Pc.isIdle]
  have hidx' : 0 ∈ (heldA.mount 0).fmiHashAvl := by simp [hidx]
  obtain ⟨n, s', hrun, hidle', hheld', hpool, -⟩ := release_last hs hq hidle (by simp [hheld]) hv hc hidx'
  exact ⟨hs, hq, hidle, by simp [hheld], hv, hc, hidx', n, s', hrun, hidle',
    by simp [hheld', hheld], by rw [hpool hk]⟩

/-! ## The next lookup -/

/-- An indexed node is what `avl_find` returns for its own path. -/
theorem Inv.avlFind_eq_some {mi : Mount} {K : Path} (hs : Inv s) (hK : NulFree K)
    (hn : np ∈ (s.mount mi).fmiHashAvl) (hp : (s.node np).nRpath = some K) :
    avlFind s.hdr (s.mount mi).fmiHashAvl K.hdr = some np := by
  cases h : avlFind s.hdr (s.mount mi).fmiHashAvl K.hdr with
  | none => exact absurd hp ((hs.avlFind_eq_none_iff hK).mp h np hn)
  | some n =>
    obtain ⟨hn', hp'⟩ := hs.of_avlFind_eq_some hK h
    obtain ⟨-, -, -, -, p, hq, hl⟩ := hs.linked mi n hn'
    have hhdr : s.hdr n = K.hdr := by
      rw [hp'] at hq; cases hq; simp [hp', hl, Path.hdr]
    rw [ordered_unique (hs.ordered mi) (hs.hdrsWellFormed mi) hn' hn
      (hhdr ▸ (hs.cmp_eq_zero_iff hn hK).mpr hp)]

/-- **Release, then look the name up again.**  A node the cache keeps, released by its last
holder and looked up again under its name, comes back as the same node, with no new node
built: the caller holds it again, and the freelist, every node and every index are as they
were before the release. -/
theorem release_then_lookup {mi : Mount} {dirnm name : Path} {sep : UInt8} (hs : Inv s)
    (hq : Quiet s t) (hidle : s.idle t) (hheld : np ∈ s.held) (hv : (s.node np).vCount = 1)
    (hc : (s.node np).rCount = 0) (hidx : np ∈ (s.mount mi).fmiHashAvl)
    (hK : (s.node np).nRpath = some (findcreateRpath dirnm sep name))
    (hnul : NulFree (findcreateRpath dirnm sep name)) (hkeep : s.keeps np) (fap : Fap) :
    ∃ s₁ fuel s₂, s.run (.release t np :: List.replicate 4 (.run t)) = some s₁ ∧
      np ∈ s₁.fusefreelist ∧
      (s₁.step (.findcreate t mi dirnm sep name fap)).bind (Cache.solo t fuel) = some s₂ ∧
      s₂.threads[t]? = some (.returned (some np) false) ∧ s₂.held = np :: s.held.erase np ∧
      s₂.fusefreelist = s.fusefreelist ∧ s₂.node = s.node ∧ s₂.mount = s.mount := by
  obtain ⟨pc, hpc, -⟩ := idle_iff.mp hidle
  obtain ⟨-, hh, -⟩ := hs.linked mi np hidx
  have hrun := release_pools hq hidle hheld hv hc hh hkeep
  set s₁ := ((s.dropHeld np).addfreeInsert np).setPc t .idle
  have hidle₁ : s₁.idle t := idle_iff.mpr ⟨_, setPc_self (s := (s.dropHeld np).addfreeInsert np) hpc, rfl⟩
  set K := findcreateRpath dirnm sep name
  have henter : s₁.step (.findcreate t mi dirnm sep name fap) =
      some (s₁.setPc t (.fcEnter mi K (fap ≠ .null))) := if_pos hidle₁
  have hpc₁ : s₁.threads[t]? = some .idle := setPc_self (s := (s.dropHeld np).addfreeInsert np) hpc
  have a : Alone (s₁.setPc t (.fcEnter mi K (fap ≠ .null))) t (.fcEnter mi K (fap ≠ .null)) :=
    ⟨(hs.run hrun).step henter, (Quiet.setPc (s := (s.dropHeld np).addfreeInsert np) hq hpc .idle).setPc
      hpc₁ _, setPc_self hpc₁⟩
  obtain ⟨s₂, hpath, hret, hheld₂, hfl₂, hnode, hother, hmount⟩ := a.found (hs.avlFind_eq_some hnul hidx hK)
  obtain ⟨fuel, hfuel⟩ := hpath.solo_eq hret
  have hfree : np ∉ s.fusefreelist := hs.heldFree np hheld
  refine ⟨s₁, fuel, s₂, hrun, by simp [s₁, Cache.dropHeld], by rw [henter]; exact hfuel, hret, hheld₂, ?_,
    funext fun n => ?_, hmount⟩
  · rw [hfl₂]
    simp [s₁, Cache.dropHeld, List.erase_append_right _ hfree]
  · by_cases h : n = np
    · subst h; rw [hnode]; simp [s₁, Cache.dropHeld]
    · exact hother n h

theorem release_then_lookup_heldA :
    Inv heldA ∧ Quiet heldA 0 ∧ heldA.idle 0 ∧ heldA.keeps 0 ∧
      ∃ s₁ fuel s₂, heldA.run (.release 0 0 :: List.replicate 4 (.run 0)) = some s₁ ∧
        (s₁.step (.findcreate 0 0 [] 0 [97] .null)).bind (Cache.solo 0 fuel) = some s₂ ∧
        s₂.threads[0]? = some (.returned (some 0) false) ∧ s₂.held = [0] ∧ s₂.node = heldA.node := by
  obtain ⟨hth, hheld, hv, hc, hidx, hK, hk⟩ := heldA_facts
  have hs := reachable_heldA.inv
  have hq := quiet_of_threads_eq hth
  have hidle : heldA.idle 0 := by simp [Cache.idle, hth, Pc.isIdle]
  obtain ⟨s₁, fuel, s₂, hrun, -, hlook, hret, hheld₂, -, hnode, -⟩ :=
    release_then_lookup hs hq hidle (by simp [hheld]) hv hc (show 0 ∈ (heldA.mount 0).fmiHashAvl by simp [hidx])
      hK (by decide) hk .null
  exact ⟨hs, hq, hidle, hk, s₁, fuel, s₂, hrun, hlook, hret, by simp [hheld₂, hheld], hnode⟩

end Release

end FusefsNode
