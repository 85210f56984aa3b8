import FusefsNode.Cache.Step

/-!
# The index locks never deadlock

The only lock a thread of the model waits for is a mount's index lock: `rw_enter` in
`sn_hashfind`, `make_fusenode`, `fusefs_addfree`, `fusefs_node_reclaim`,
`fusefs_destroy_table` and `fusefs_check_table`.  The other locks of the file are taken and
released within one atomic step; `LockOrder.lean` shows the order in which the file takes them.

A thread that holds an index lock never waits: `sn_hashfind` under its lock only tests the
freelist and takes a reference, `fusefs_check_table` only reads, and `fusefs_destroy_table`
waits only for `avl_destroy_nodes` to hand it the next node.  So in every state in which a
thread is inside the file, some thread inside the file can move: if no index lock is held,
the thread itself can, and otherwise a holder can (`index_locks_deadlock_free`).
-/

namespace FusefsNode

namespace Cache

variable {s : Cache} {t u : Tid} {pc : Pc}

/-- Thread `u` can take its next step, or its drain can be handed a node. -/
def CanMove (s : Cache) (u : Tid) : Prop :=
  (s.step (.run u)).isSome ∨ ∃ np, (s.step (.drain u np)).isSome

/-- A thread that holds an index lock can move. -/
theorem canMove_of_lock (hu : s.threads[u]? = some pc) (hl : pc.lock ≠ none) : s.CanMove u := by
  rw [CanMove, step_run hu]
  cases pc with
  | dtDrain mi rest rlist =>
    cases rest with
    | nil => exact .inl rfl
    | cons np rest => exact .inr ⟨np, by simp [step, hu]⟩
  | hfFreef | hfLock | hfHold | ctWalk =>
    exact .inl (by simp only [runPc]; (repeat' split) <;> rfl)
  | ctRead _ _ _ _ _ field => cases field <;> exact .inl rfl
  | _ => exact absurd rfl hl

/-- With no index lock held, a thread inside the file can take its step, unless it is
`fusefs_destroy_table`'s drain, which holds a lock. -/
theorem runPc_isSome (hfree : ∀ pc ∈ s.threads, pc.lock = none) (hpc : pc.isIdle = false)
    (hd : pc.lock = none) : (s.runPc t pc).isSome := by
  have hw : ∀ m, s.writerFree m := fun m => List.all_eq_true.mpr fun pc h => by simp [hfree pc h]
  have hl : ∀ m, s.lockFree m := fun m => List.all_eq_true.mpr fun pc h => by simp [hfree pc h]
  cases pc with
  | idle | returned | checked => cases hpc
  | dtDrain => cases hd
  | ctRead _ _ _ _ _ field => cases field <;> rfl
  | _ => simp only [runPc, hw, hl, if_true]; (repeat' split) <;> rfl

end Cache

/-- **The index locks never deadlock.**  In every state, if a thread is inside a function of
the file, some thread inside the file can take its next step or, in
`fusefs_destroy_table`'s drain, be handed its next node. -/
theorem index_locks_deadlock_free {s : Cache} {t : Tid} {pc : Pc}
    (ht : s.threads[t]? = some pc) (hpc : pc.isIdle = false) :
    ∃ u pu, s.threads[u]? = some pu ∧ pu.isIdle = false ∧ s.CanMove u := by
  by_cases hfree : ∀ pc ∈ s.threads, pc.lock = none
  · have hd := hfree pc (List.mem_iff_getElem?.mpr ⟨t, ht⟩)
    refine ⟨t, pc, ht, hpc, .inl ?_⟩
    rw [Cache.step_run ht]
    exact Cache.runPc_isSome hfree hpc hd
  · push_neg at hfree
    obtain ⟨pu, hmem, hl⟩ := hfree
    obtain ⟨u, hu⟩ := List.mem_iff_getElem?.mp hmem
    refine ⟨u, pu, hu, ?_, Cache.canMove_of_lock hu hl⟩
    cases pu <;> first | rfl | exact absurd rfl hl

/-- Thread 1 waits for the index lock that `fusefs_destroy_table`'s drain holds in thread 0. -/
def drainBlocksA : Cache :=
  ((Cache.init 1 false 2).setPc 0 (.dtDrain 0 [0] [])).setPc 1 (.fcEnter 0 [97] true)

theorem index_locks_deadlock_free_drainBlocksA :
    drainBlocksA.threads[1]? = some (.fcEnter 0 [97] true) ∧ (Pc.fcEnter 0 [97] true).isIdle = false ∧
      ∃ u pu, drainBlocksA.threads[u]? = some pu ∧ pu.isIdle = false ∧ drainBlocksA.CanMove u := by
  have ht : drainBlocksA.threads[1]? = some (.fcEnter 0 [97] true) := rfl
  have hpc : (Pc.fcEnter 0 [97] true).isIdle = false := rfl
  exact ⟨ht, hpc, index_locks_deadlock_free ht hpc⟩

end FusefsNode
