import FusefsNode.Cache.Retry

/-!
# `fusefs_node_reclaim` and `fusefs_destroy_table` on a busy node

Both functions take nodes off the freelist and hand them to `fusefs_addfree` to be destroyed.
`fusefs_addfree` destroys a node only when its `r_count` is zero; a node whose `r_count` code
outside the file holds, and whose only vnode count is the caller's, it links at the tail of
the freelist instead (`addfree_pools_busy`), linked in an index or not.

* `fusefs_node_reclaim` then pops the same node again, and again: with such a node alone on
  the freelist the loop runs through the same four states for ever (`ReclaimCycle`,
  `ReclaimCycle.run`), so a call from a reachable state never returns
  (`reclaim_never_returns`):

  ```text
  pc              freelist   what the step sees
  rcLoop          [np]       np at the head: pop it
  rcFlags np      []         RHASHED clear: no unlink
  afCount np      []         r_count set: not destroyed
  afPool np       []         v_count one: linked at the tail, back to rcLoop
  ```

  Without such a node the loop does end: when no node on the freelist has an `r_count`, each
  pass takes one node off the freelist for good, and a call run alone returns with the
  freelist empty (`reclaim_returns_of_not_busy`, by the measure `8 * length + rank` that
  every step lowers, `Unlocked.reclaimAdvance` and `Unlocked.reclaim_run`).
* `fusefs_destroy_table` unlinks such a node from the index of the mount it tears down and
  clears `RHASHED`, and `fusefs_addfree` puts it back on the freelist, where nothing finds it
  (`destroy_table_repools_busy`).
-/

namespace FusefsNode

section Addfree

variable {s : Cache} {t : Tid} {np : Node} {k : AddfreeCont}

theorem exists_eq_some_of_any {α : Type} {p : α → Bool} {o : Option α} (h : o.any p) :
    ∃ x, o = some x ∧ p x := by
  cases o with
  | none => exact absurd h (by simp)
  | some x => exact ⟨x, rfl, h⟩

/-- **`fusefs_addfree` pools a busy node.**  With `r_count` set and `v_count` at one, the
unlocked test skips the destroy branch, and under the index lock the node goes to the tail of
the freelist. -/
theorem addfree_pools_busy (hu : Unlocked s t) (ht : s.threads[t]? = some (.afCount np k))
    (hc : (s.node np).rCount ≠ 0) (hv : ¬ 1 < (s.node np).vCount) :
    s.run [.run t, .run t] = some ((s.addfreeInsert np).setPc t k.ret) := by
  have h₁ : s.step (.run t) = some (s.setPc t (.afPool np k)) := by
    rw [Cache.step_run ht, Cache.runPc, if_neg hc]
  have ht₁ : (s.setPc t (.afPool np k)).threads[t]? = some (.afPool np k) := setPc_self ht
  have hu₁ := hu.setPc ht rfl (.afPool np k)
  have hv₁ : ¬ 1 < ((s.setPc t (.afPool np k)).node np).vCount := hv
  have h₂ : (s.setPc t (.afPool np k)).step (.run t) =
      some (((s.setPc t (.afPool np k)).addfreeInsert np).setPc t k.ret) := by
    rw [Cache.step_run ht₁, Cache.runPc, if_pos (hu₁.lockFree ht₁ rfl _), if_neg hv₁]
  simp only [Cache.run, h₁, h₂, Option.some_bind]
  simp only [Cache.addfreeInsert, Cache.setPc, List.set_set]

end Addfree

/-! ## The reclaim loop -/

/-- A node `fusefs_addfree` pools again each time it gets it: code outside the file holds its
`r_count`, it is unlinked, and it has no vnode count but its owner's. -/
def Requeueable (s : Cache) (np : Node) : Prop :=
  (s.node np).rCount ≠ 0 ∧ (s.node np).rHashed = false ∧ ¬ 1 < (s.node np).vCount

/-- Thread `t` in `fusefs_node_reclaim`'s loop with `np` its only node: on the freelist at the
loop's test, or in the thread's hands at one of the three steps after it. -/
def ReclaimCycle (t : Tid) (np : Node) (s : Cache) : Prop :=
  Unlocked s t ∧ Requeueable s np ∧
    (s.threads[t]? = some .rcLoop ∧ s.fusefreelist = [np] ∨
      s.fusefreelist = [] ∧ (s.threads[t]? = some (.rcFlags np) ∨
        s.threads[t]? = some (.afCount np .reclaim) ∨ s.threads[t]? = some (.afPool np .reclaim)))

section Cycle

variable {s : Cache} {t : Tid} {np : Node}

theorem ReclaimCycle.not_idle (h : ReclaimCycle t np s) : s.threads[t]? ≠ some .idle := by
  obtain ⟨-, -, ⟨ht, -⟩ | ⟨-, ht | ht | ht⟩⟩ := h <;> rw [ht] <;>
    exact fun h => Pc.noConfusion (Option.some.inj h)

/-- The loop's next step keeps it in the cycle: pop `np`, see it unlinked, see its
`r_count`, pool it again. -/
theorem ReclaimCycle.step (h : ReclaimCycle t np s) :
    ∃ s', s.step (.run t) = some s' ∧ ReclaimCycle t np s' := by
  obtain ⟨hu, hq, hpc⟩ := h
  obtain ⟨hc, hh, hv⟩ := hq
  rcases hpc with ⟨ht, hfl⟩ | ⟨hfl, ht | ht | ht⟩
  · refine ⟨(s.snRmfree np).setPc t (.rcFlags np), ?_, hu.setPc ht rfl _, ⟨hc, hh, hv⟩,
      .inr ⟨show s.fusefreelist.erase np = [] by rw [hfl, List.erase_cons_head],
        .inl (setPc_self ht)⟩⟩
    rw [Cache.step_run ht, Cache.runPc, hfl]
  · refine ⟨s.setPc t (.afCount np .reclaim), ?_, hu.setPc ht rfl _, ⟨hc, hh, hv⟩,
      .inr ⟨hfl, .inr (.inl (setPc_self ht))⟩⟩
    rw [Cache.step_run ht, Cache.runPc, if_neg (ne_true_of_eq_false hh)]
  · refine ⟨s.setPc t (.afPool np .reclaim), ?_, hu.setPc ht rfl _, ⟨hc, hh, hv⟩,
      .inr ⟨hfl, .inr (.inr (setPc_self ht))⟩⟩
    rw [Cache.step_run ht, Cache.runPc, if_neg hc]
  · refine ⟨(s.addfreeInsert np).setPc t .rcLoop, ?_, hu.setPc ht rfl _, ⟨hc, hh, hv⟩,
      .inl ⟨setPc_self ht, show s.fusefreelist ++ [np] = [np] by rw [hfl, List.nil_append]⟩⟩
    rw [Cache.step_run ht, Cache.runPc, if_pos (hu.lockFree ht rfl _), if_neg hv]
    rfl

/-- **The loop never ends.**  However long thread `t` runs alone, it stays in the cycle. -/
theorem ReclaimCycle.run (h : ReclaimCycle t np s) (n : ℕ) :
    ∃ s', s.run (List.replicate n (.run t)) = some s' ∧ ReclaimCycle t np s' := by
  induction n generalizing s with
  | zero => exact ⟨s, rfl, h⟩
  | succ n ih =>
    obtain ⟨s₁, h₁, hc₁⟩ := h.step
    obtain ⟨s', hrun, hc'⟩ := ih hc₁
    exact ⟨s', by rw [List.replicate_succ, Cache.run, h₁, Option.some_bind, hrun], hc'⟩

end Cycle

/-! ## The reclaim loop when no pooled node is busy -/

/-- The points of `fusefs_node_reclaim`'s loop from which its pass ends without pooling: the
loop's test, or a node in hand with no `r_count`, unlinked by the time `fusefs_addfree` tests
`RHASHED`. -/
def Pc.ReclaimOk (s : Cache) : Pc → Prop
  | .rcLoop | .afInactive _ .reclaim | .afRecheck _ .reclaim => True
  | .rcFlags np | .rcUnhash np => (s.node np).rCount = 0
  | .afCount np .reclaim | .afHashed np .reclaim | .afDestroy np .reclaim =>
    (s.node np).rCount = 0 ∧ (s.node np).rHashed = false
  | _ => False

/-- The points of one pass of the loop, in the order the code runs through them. -/
def Pc.reclaimRank : Pc → ℕ
  | .rcFlags _ => 7
  | .rcUnhash _ => 6
  | .afCount .. => 5
  | .afHashed .. => 4
  | .afDestroy .. => 3
  | .afInactive .. => 2
  | .afRecheck .. => 1
  | _ => 0

/-- Thread `t` at `pc` takes a step of the loop: the step touches no `r_count` and puts no node
on the freelist, and it returns with the freelist empty or stays in the loop lower in the
measure `8 * length + rank`. -/
def ReclaimAdvance (s : Cache) (t : Tid) (pc : Pc) : Prop :=
  ∃ (X : Cache) (pc₁ : Pc), s.runPc t pc = some (X.setPc t pc₁) ∧ X.threads = s.threads ∧
    (∀ n, (X.node n).rCount = (s.node n).rCount) ∧ X.fusefreelist ⊆ s.fusefreelist ∧
    (pc₁ = .idle ∧ X.fusefreelist = [] ∨ pc₁.ReclaimOk X ∧
      8 * X.fusefreelist.length + pc₁.reclaimRank < 8 * s.fusefreelist.length + pc.reclaimRank)

section Drain

variable {s : Cache} {t : Tid} {pc : Pc}

/-- A step that keeps the freelist and moves down the order lowers the measure. -/
theorem reclaim_measure_lt {l : List Node} {pc pc₁ : Pc} (h : pc₁.reclaimRank < pc.reclaimRank) :
    8 * l.length + pc₁.reclaimRank < 8 * l.length + pc.reclaimRank :=
  Nat.add_lt_add_left h _

/-- **The step lemma.**  With no other lock holder and no busy node on the freelist, every
point of the loop advances. -/
theorem Unlocked.reclaimAdvance (hu : Unlocked s t) (ht : s.threads[t]? = some pc)
    (hok : pc.ReclaimOk s) (hfree : ∀ n ∈ s.fusefreelist, (s.node n).rCount = 0) :
    ReclaimAdvance s t pc := by
  have hlf := hu.lockFree ht
  have down : ∀ {pc₁ : Pc}, pc₁.reclaimRank < pc.reclaimRank →
      8 * s.fusefreelist.length + pc₁.reclaimRank < 8 * s.fusefreelist.length + pc.reclaimRank :=
    reclaim_measure_lt
  cases pc with
  | rcLoop =>
    cases hfl : s.fusefreelist with
    | nil => exact ⟨s, .idle, by rw [Cache.runPc, hfl], rfl, fun _ => rfl, .refl _, .inl ⟨rfl, hfl⟩⟩
    | cons np rest =>
      refine ⟨s.snRmfree np, .rcFlags np, by rw [Cache.runPc, hfl], rfl, fun _ => rfl,
        List.erase_subset _ _, .inr ⟨hfree np (by simp [hfl]), ?_⟩⟩
      simp only [Cache.snRmfree, hfl, List.erase_cons_head, List.length_cons, Pc.reclaimRank]
      omega
  | rcFlags np =>
    by_cases hh : (s.node np).rHashed
    · exact ⟨s, .rcUnhash np, by rw [Cache.runPc, if_pos hh], rfl, fun _ => rfl, .refl _,
        .inr ⟨hok, down (Nat.le_of_ble_eq_true rfl)⟩⟩
    · exact ⟨s, .afCount np .reclaim, by rw [Cache.runPc, if_neg hh], rfl, fun _ => rfl, .refl _,
        .inr ⟨⟨hok, eq_false_of_ne_true hh⟩, down (Nat.le_of_ble_eq_true rfl)⟩⟩
  | rcUnhash np =>
    -- under the index lock: drop the freelist's count, or unlink the node
    by_cases hv : 1 < (s.node np).vCount
    · exact ⟨s.vnRele np, .rcLoop, by rw [Cache.runPc, if_pos (hlf rfl _), if_pos hv], rfl,
        fun _ => by simp, .refl _, .inr ⟨trivial, down (Nat.le_of_ble_eq_true rfl)⟩⟩
    · exact ⟨s.snRmhashLocked np, .afCount np .reclaim,
        by rw [Cache.runPc, if_pos (hlf rfl _), if_neg hv], rfl, fun _ => by simp, .refl _,
        .inr ⟨⟨by simpa using hok, by simp⟩, down (Nat.le_of_ble_eq_true rfl)⟩⟩
  | afCount np k =>
    cases k <;> try exact hok.elim
    exact ⟨s, .afHashed np .reclaim, by rw [Cache.runPc, if_pos hok.1], rfl, fun _ => rfl, .refl _,
      .inr ⟨hok, down (Nat.le_of_ble_eq_true rfl)⟩⟩
  | afHashed np k =>
    cases k <;> try exact hok.elim
    exact ⟨s, .afDestroy np .reclaim, by rw [Cache.runPc, if_neg (ne_true_of_eq_false hok.2)],
      rfl, fun _ => rfl, .refl _, .inr ⟨hok, down (Nat.le_of_ble_eq_true rfl)⟩⟩
  | afDestroy np k =>
    cases k <;> try exact hok.elim
    exact ⟨s, .afInactive np .reclaim, by rw [Cache.runPc, if_neg (ne_true_of_eq_false hok.2)],
      rfl, fun _ => rfl, .refl _, .inr ⟨trivial, down (Nat.le_of_ble_eq_true rfl)⟩⟩
  | afInactive np k =>
    cases k <;> try exact hok.elim
    exact ⟨s.snInactive np, .afRecheck np .reclaim, rfl, rfl,
      fun n => by by_cases h : n = np <;> simp [h],
      .refl _, .inr ⟨trivial, down (Nat.le_of_ble_eq_true rfl)⟩⟩
  | afRecheck np k =>
    -- `sn_destroy_node`, or the node has another holder
    cases k <;> try exact hok.elim
    by_cases hv : 1 < (s.node np).vCount
    · exact ⟨s.vnRele np, .rcLoop, by rw [Cache.runPc, if_pos hv]; rfl, rfl, fun _ => by simp,
        .refl _, .inr ⟨trivial, down (Nat.le_of_ble_eq_true rfl)⟩⟩
    · exact ⟨s.snDestroyNode np, .rcLoop, by rw [Cache.runPc, if_neg hv]; rfl, rfl,
        fun _ => by simp, .refl _, .inr ⟨trivial, down (Nat.le_of_ble_eq_true rfl)⟩⟩
  | _ => exact hok.elim

/-- **The run lemma.**  From any point of the loop, with no other lock holder and no busy node
on the freelist, thread `t` alone returns with the freelist empty, within one step more than
the measure. -/
theorem Unlocked.reclaim_run (hu : Unlocked s t) (ht : s.threads[t]? = some pc)
    (hok : pc.ReclaimOk s) (hfree : ∀ n ∈ s.fusefreelist, (s.node n).rCount = 0) :
    ∃ n s', n ≤ 8 * s.fusefreelist.length + pc.reclaimRank + 1 ∧
      s.run (List.replicate n (.run t)) = some s' ∧ s'.threads[t]? = some .idle ∧
      s'.fusefreelist = [] := by
  generalize hμ : 8 * s.fusefreelist.length + pc.reclaimRank = μ
  induction μ using Nat.strong_induction_on generalizing s pc with
  | _ μ ih =>
  obtain ⟨X, pc₁, hrun, hX, hc, hsub, hnext⟩ := hu.reclaimAdvance ht hok hfree
  have h₁ : s.step (.run t) = some (X.setPc t pc₁) := (Cache.step_run ht).trans hrun
  have ht₁ : (X.setPc t pc₁).threads[t]? = some pc₁ :=
    setPc_self (show X.threads[t]? = some pc by rw [hX]; exact ht)
  rcases hnext with ⟨rfl, hfl⟩ | ⟨hok₁, hlt⟩
  · exact ⟨1, _, by omega, by rw [List.replicate_one, Cache.run, h₁]; rfl, ht₁, hfl⟩
  · have hfree₁ : ∀ n ∈ X.fusefreelist, (X.node n).rCount = 0 := fun n hn =>
      (hc n).trans (hfree n (hsub hn))
    obtain ⟨n, s', hn, hrun', hidle, hfl⟩ :=
      ih _ (hμ ▸ hlt) (hu.setPc ht hX pc₁) ht₁ hok₁ hfree₁ rfl
    refine ⟨n + 1, s', by simp only [Cache.setPc] at hn; omega, ?_, hidle, hfl⟩
    rw [List.replicate_succ, Cache.run, h₁, Option.some_bind, hrun']

end Drain

/-- **`fusefs_node_reclaim` returns when no pooled node is busy.**  Called with no other lock
holder, when no node on the freelist has an `r_count`, it returns with the freelist empty,
after at most eight steps for each node it finds there and one more. -/
theorem reclaim_returns_of_not_busy {s : Cache} {t : Tid} (hu : Unlocked s t)
    (ht : s.threads[t]? = some .rcLoop) (hfree : ∀ n ∈ s.fusefreelist, (s.node n).rCount = 0) :
    ∃ n s', n ≤ 8 * s.fusefreelist.length + 1 ∧
      s.run (List.replicate n (.run t)) = some s' ∧ s'.threads[t]? = some .idle ∧
      s'.fusefreelist = [] :=
  hu.reclaim_run ht trivial hfree

theorem reclaim_returns_of_not_busy_pooledA :
    Unlocked (pooledA.setPc 0 .rcLoop) 0 ∧ (pooledA.setPc 0 .rcLoop).threads[0]? = some .rcLoop ∧
      (∀ n ∈ (pooledA.setPc 0 .rcLoop).fusefreelist, ((pooledA.setPc 0 .rcLoop).node n).rCount = 0) ∧
      ∃ n s', n ≤ 9 ∧ (pooledA.setPc 0 .rcLoop).run (List.replicate n (.run 0)) = some s' ∧
        s'.threads[0]? = some .idle ∧ s'.fusefreelist = [] := by
  obtain ⟨hth, -, hfl, hc, -⟩ := pooledA_facts
  have hth' : (pooledA.setPc 0 .rcLoop).threads = [.rcLoop] := by simp [hth]
  have hfree : ∀ n ∈ (pooledA.setPc 0 .rcLoop).fusefreelist,
      ((pooledA.setPc 0 .rcLoop).node n).rCount = 0 := by simpa [hfl] using hc
  have ht : (pooledA.setPc 0 .rcLoop).threads[0]? = some .rcLoop := by rw [hth']; rfl
  obtain ⟨n, s', hn, hrun⟩ := reclaim_returns_of_not_busy (unlocked_of_threads_eq hth') ht hfree
  exact ⟨unlocked_of_threads_eq hth', ht, hfree, n, s', by simpa [hfl] using hn, hrun⟩

/-- Thread 0 creates node 0 under "a"; code outside the file sets its `r_count`; the thread
releases the node, and `fusefs_addfree` pools it, still linked. -/
def pooledBusy : List Action :=
  [.findcreate 0 0 [] 0 [97] .fattr0, .run 0, .run 0, .run 0, .run 0,
   .outside 0 1 0 false false false, .release 0 0, .run 0, .run 0]

/-- The first pass of `fusefs_node_reclaim` over `pooledBusy`'s freelist: pop node 0, unlink
it, and hand it to `fusefs_addfree`, which pools it again. -/
def reclaimFirstPass : List Action := .reclaim 0 :: List.replicate 5 (.run 0)

theorem reclaim_never_returns :
    ∃ s, Reachable s ∧ s.threads = [.idle] ∧ s.fusefreelist = [0] ∧ (s.node 0).rCount ≠ 0 ∧
      ∀ n, ∃ s', s.run (.reclaim 0 :: List.replicate n (.run 0)) = some s' ∧
        s'.threads[0]? ≠ some .idle := by
  obtain ⟨s, hs, hidle, hfl, hc, hfirst, hcycle⟩ := exists_reachable_of_run 1 false 1 pooledBusy
    (P := fun s => s.threads = [.idle] ∧ s.fusefreelist = [0] ∧ (s.node 0).rCount ≠ 0 ∧
      (∀ n : ℕ, n < 5 → (s.run (.reclaim 0 :: List.replicate n (.run 0))).any
        fun x : Cache => decide (x.threads[0]? ≠ some Pc.idle)) ∧
      (s.run reclaimFirstPass).any fun x : Cache => decide (x.threads = [.rcLoop] ∧
        x.fusefreelist = [0] ∧ (x.node 0).rCount ≠ 0 ∧ (x.node 0).rHashed = false ∧
        ¬ 1 < (x.node 0).vCount))
    (by decide)
  refine ⟨s, hs, hidle, hfl, hc, fun n => ?_⟩
  obtain ⟨x, hx, hxs⟩ := exists_eq_some_of_any hcycle
  obtain ⟨hxt, hxfl, hxc, hxh, hxv⟩ := of_decide_eq_true hxs
  by_cases hn : n < 5
  · obtain ⟨y, hy, hyt⟩ := exists_eq_some_of_any (hfirst n hn)
    exact ⟨y, hy, of_decide_eq_true hyt⟩
  · have hx₀ : ReclaimCycle 0 0 x :=
      ⟨unlocked_of_threads_eq hxt, ⟨hxc, hxh, hxv⟩, .inl ⟨by rw [hxt]; rfl, hxfl⟩⟩
    obtain ⟨s', hrun, hc'⟩ := hx₀.run (n - 5)
    refine ⟨s', ?_, hc'.not_idle⟩
    have hsplit : .reclaim 0 :: List.replicate n (.run 0) =
        reclaimFirstPass ++ List.replicate (n - 5) (.run 0) := by
      rw [reclaimFirstPass, List.cons_append, ← List.replicate_add, Nat.add_sub_cancel' (by omega)]
    rw [hsplit, Cache.run_append, hx, Option.some_bind, hrun]

/-! ## `fusefs_destroy_table` -/

/-- `fusefs_destroy_table` on mount 0 run alone: `avl_destroy_nodes` hands it node 0, and
`fusefs_addfree` then runs on it. -/
def destroyTableAlone : List Action :=
  [.destroyTable 0 0, .run 0, .drain 0 0, .run 0, .run 0, .run 0]

theorem destroy_table_repools_busy :
    ∃ s s', Reachable s ∧ Inv s ∧ s.threads = [.idle] ∧ 0 ∈ (s.mount 0).fmiHashAvl ∧
      0 ∈ s.fusefreelist ∧ (s.node 0).rCount ≠ 0 ∧
      s.run destroyTableAlone = some s' ∧ s'.threads = [.idle] ∧
      0 ∈ s'.fusefreelist ∧ 0 ∉ (s'.mount 0).fmiHashAvl ∧ (s'.node 0).rHashed = false ∧
      (s'.node 0).live := by
  obtain ⟨s, hs, hidle, hidx, hfl, hc, hafter⟩ := exists_reachable_of_run 1 false 1 pooledBusy
    (P := fun s => s.threads = [.idle] ∧ 0 ∈ (s.mount 0).fmiHashAvl ∧ 0 ∈ s.fusefreelist ∧
      (s.node 0).rCount ≠ 0 ∧ (s.run destroyTableAlone).any fun s' : Cache =>
        decide (s'.threads = [.idle] ∧ 0 ∈ s'.fusefreelist ∧ 0 ∉ (s'.mount 0).fmiHashAvl ∧
          (s'.node 0).rHashed = false ∧ (s'.node 0).live))
    (by decide)
  obtain ⟨s', hrun, hs'⟩ := exists_eq_some_of_any hafter
  exact ⟨s, s', hs, hs.inv, hidle, hidx, hfl, hc, hrun, of_decide_eq_true hs'⟩

/-! ## `sn_destroy_node` -/

/-- **`sn_destroy_node` frees no node another owner holds.**  In every reachable state in which
no `sn_rmhash_locked` has run on a node without `RHASHED` (`rmhash_of_stale_rhashed` shows such
a call; past it `avl_remove` has moved tree links the model does not follow), when
`fusefs_addfree`'s recheck finds `v_count` at most one, the node has exactly that one count,
the caller's: no caller of `fusefs_node_findcreate`, no pager, no freelist link and no other
thread holds it, it is in no index, and `RHASHED` is clear, as `sn_destroy_node` asserts. -/
theorem destroy_node_unshared {s : Cache} {u : Tid} {np : Node} {k : AddfreeCont}
    (h : Reachable s) (hstale : s.rmhashStale = false) (hu : s.threads[u]? = some (.afRecheck np k))
    (hv : ¬ 1 < (s.node np).vCount) :
    (s.node np).live ∧ (s.node np).vCount = 1 ∧ (s.node np).rHashed = false ∧
      np ∉ s.fusefreelist ∧ np ∉ s.held ∧ np ∉ s.paged ∧ (∀ m, np ∉ (s.mount m).fmiHashAvl) ∧
      ∀ v pv, v ≠ u → s.threads[v]? = some pv → np ∉ pv.tentative := by
  have hs := h.inv
  have hmem : np ∈ (Pc.afRecheck np k).tentative := List.mem_cons_self _ _
  have hcount := hs.count_tentative hu hmem
  have hunh : (s.node np).rHashed = false := (hs.pcs u _ hu).1 np (List.mem_cons_self _ _)
  refine ⟨hs.live_of_tentative hu hmem, by omega, hunh, hs.tentative_not_free hu hmem,
    fun hh => ?_, fun hp => ?_, hs.not_indexed hunh, fun v pv hne hv' hn =>
      hs.tentative_disjoint hv' hu hne hn hmem⟩
  · have := List.count_pos_iff.mpr hh; omega
  · have := List.count_pos_iff.mpr hp; omega

/-- Node 0 pooled under "a", then `fusefs_destroy_table` on mount 0 up to `fusefs_addfree`'s
recheck. -/
def destroyToRecheck : List Action :=
  poolA ++ [.destroyTable 0 0, .run 0, .drain 0 0, .run 0, .run 0, .run 0, .run 0, .run 0]

theorem destroy_node_unshared_destroyToRecheck :
    ∃ s, Reachable s ∧ s.rmhashStale = false ∧ s.threads[0]? = some (.afRecheck 0 (.destroyTable [])) ∧
      ¬ 1 < (s.node 0).vCount ∧ (s.node 0).live ∧ (s.node 0).vCount = 1 ∧ (s.node 0).rHashed = false ∧
      0 ∉ s.fusefreelist ∧ 0 ∉ s.held ∧ 0 ∉ s.paged ∧ (∀ m, 0 ∉ (s.mount m).fmiHashAvl) ∧
      ∀ v pv, v ≠ 0 → s.threads[v]? = some pv → 0 ∉ pv.tentative := by
  obtain ⟨s, hs, hst, ht, hv⟩ := exists_reachable_of_run 1 false 1 destroyToRecheck
    (P := fun s => s.rmhashStale = false ∧ s.threads[0]? = some (.afRecheck 0 (.destroyTable [])) ∧
      ¬ 1 < (s.node 0).vCount)
    (by decide)
  exact ⟨s, hs, hst, ht, hv, destroy_node_unshared hs hst ht hv⟩

end FusefsNode
