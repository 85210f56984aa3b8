import FusefsNode.Cache.Teardown
import Mathlib.Algebra.Order.BigOperators.Group.List
import Mathlib.Algebra.Order.Ring.Nat

/-!
# Unmount: `fusefs_check_table` and `fusefs_destroy_table`

An unmount first asks `fusefs_check_table` whether any node of the mount's index other than
the root is busy, and then tears the index down with `fusefs_destroy_table`.  Both run here as
the steps of `Cache.step`, alone, and each is related to a closed form that says what it does.

`fusefs_destroy_table` has two loops.  The drain takes the nodes in whatever order
`avl_destroy_nodes` hands them over; `Cache.drainState` is the cache once the nodes `D` have
been handed over, and one step (`drainState_drain`), then any order of them
(`drainState_run`), keeps to it.  The final loop runs `fusefs_addfree` on each node of
`rlist`; on a node with no `r_count` and `RHASHED` clear that is five steps
(`addfreeUnhashed_run`), and the whole loop (`dtNext_run`) has the closed form
`Cache.reaped`, which reads `rlist` only through membership and so does not depend on the
drain order (`Cache.reaped_perm`).  Together (`run_destroyTableSteps`): whatever the order,
the call ends in `Cache.tableDestroyed`, provided no node it drains has an `r_count`; a node
that has one is pooled again, unindexed (`destroy_table_repools_busy`).

`fusefs_check_table` walks the index under the reader lock with three unlocked reads of each
node; `Cache.checkWalk` is its loop with the break, and `Cache.checkTableResult` its result
read both ways, with and without `fusefs_check_table_debug` (`checkWalk_index`).  Zero means
that no node but the root is busy (`checkTableResult_eq_zero_iff`), and then the teardown
leaves only the root indexed (`unmount_leaves_root`).
-/

namespace FusefsNode

attribute [ext] Cache

/-! ## The drain of `fusefs_destroy_table` -/

namespace Cache

/-- The cache once `fusefs_destroy_table`'s drain has handled the nodes `R` of `mi`'s index
that were on the freelist: they are off the freelist and out of the index, without
`RHASHED`. -/
def drained (s : Cache) (mi : Mount) (R : List Node) : Cache :=
  { s with
    node := fun n => if n ∈ R then { s.node n with rHashed := false } else s.node n
    mount := fun m => if m = mi then
      { s.mount m with fmiHashAvl := (s.mount m).fmiHashAvl.filter (· ∉ R) } else s.mount m
    fusefreelist := s.fusefreelist.filter (· ∉ R) }

/-- The cache once `avl_destroy_nodes` has handed `fusefs_destroy_table` the nodes `D` of
`mi`'s index: those of them that were on the freelist are drained and on `rlist`, newest
first, and the rest of the index is still to come. -/
def drainState (s : Cache) (t : Tid) (mi : Mount) (D : List Node) : Cache :=
  (s.drained mi (D.filter (· ∈ s.fusefreelist))).setPc t
    (.dtDrain mi ((s.mount mi).fmiHashAvl.filter (· ∉ D)) (D.filter (· ∈ s.fusefreelist)).reverse)

theorem setPc_setPc (s : Cache) (t : Tid) (pc pc' : Pc) : (s.setPc t pc).setPc t pc' = s.setPc t pc' := by
  simp [List.set_set]

@[simp] theorem drained_nil (s : Cache) (mi : Mount) : s.drained mi [] = s := by
  ext1 <;> simp [drained]

end Cache

section Drain

variable {s : Cache} {t : Tid} {mi : Mount}

theorem filter_not_mem_erase {l R : List Node} (hl : l.Nodup) (a : Node) :
    (l.filter fun n => n ∉ R).erase a = l.filter fun n => n ∉ R ++ [a] := by
  rw [(hl.filter _).erase_eq_filter, List.filter_filter]
  congr 1; funext n
  by_cases h : n = a <;> simp [h]

/-- **One node of the drain.** -/
theorem drainState_drain (hfl : s.fusefreelist.Nodup) (hidx : (s.mount mi).fmiHashAvl.Nodup)
    (ht : t < s.threads.length) {D : List Node} {np : Node}
    (hnp : np ∈ (s.mount mi).fmiHashAvl) (hD : np ∉ D) :
    (s.drainState t mi D).step (.drain t np) = some (s.drainState t mi (D ++ [np])) := by
  have hpc : (s.drainState t mi D).threads[t]? = some (.dtDrain mi
      ((s.mount mi).fmiHashAvl.filter (· ∉ D)) (D.filter (· ∈ s.fusefreelist)).reverse) := by
    simp [Cache.drainState, Cache.drained, ht]
  simp only [Cache.step, hpc]
  rw [if_pos (by simpa [hD] using hnp)]
  unfold Cache.drainOne
  by_cases hf : np ∈ s.fusefreelist
  · have hR : (D ++ [np]).filter (· ∈ s.fusefreelist) = D.filter (· ∈ s.fusefreelist) ++ [np] := by
      simp [List.filter_append, hf]
    rw [if_pos (by simpa [Cache.drainState, Cache.drained, hD] using hf)]
    simp only [Cache.drainState, hR]
    congr 1
    refine Cache.ext ?_ ?_ ?_ rfl rfl rfl rfl ?_ rfl rfl rfl
    · funext n
      dsimp only [Cache.setPc, Cache.setNode, Cache.setMount, Cache.snRmfree, Cache.drained]
      by_cases h : n = np
      · subst h; simp [hD]
      · rw [Function.update_noteq h]; simp [h]
    · funext m
      dsimp only [Cache.setPc, Cache.setNode, Cache.setMount, Cache.snRmfree, Cache.drained]
      by_cases h : m = mi
      · subst h; simp only [Function.update_same, if_true, filter_not_mem_erase hidx]
      · rw [Function.update_noteq h]; simp [h]
    · exact filter_not_mem_erase hfl np
    · dsimp only [Cache.setPc, Cache.setNode, Cache.setMount, Cache.snRmfree, Cache.drained]
      rw [List.set_set, filter_not_mem_erase hidx, List.reverse_append]; rfl
  · have hR : (D ++ [np]).filter (· ∈ s.fusefreelist) = D.filter (· ∈ s.fusefreelist) := by
      simp [List.filter_append, hf]
    rw [if_neg (by simpa [Cache.drainState, Cache.drained, hD] using hf)]
    simp only [Cache.drainState, hR]
    congr 1
    refine Cache.ext rfl rfl rfl rfl rfl rfl rfl ?_ rfl rfl rfl
    dsimp only [Cache.setPc, Cache.drained]
    rw [List.set_set, filter_not_mem_erase hidx]

/-- **The drain, in any order.**  `avl_destroy_nodes` handing over nodes of the index that it
has not handed over before takes the drain from `D` to `D ++ ord`. -/
theorem drainState_run (hfl : s.fusefreelist.Nodup) (hidx : (s.mount mi).fmiHashAvl.Nodup)
    (ht : t < s.threads.length) :
    ∀ {D ord : List Node}, ord.Nodup → (∀ n ∈ ord, n ∈ (s.mount mi).fmiHashAvl ∧ n ∉ D) →
      (s.drainState t mi D).run (ord.map (.drain t)) = some (s.drainState t mi (D ++ ord))
  | D, [], _, _ => by simp [Cache.run]
  | D, np :: ord, hnd, hin => by
    obtain ⟨hnp, hD⟩ := hin np (List.mem_cons_self _ _)
    obtain ⟨hnot, hnd⟩ := List.nodup_cons.mp hnd
    have hin' : ∀ n ∈ ord, n ∈ (s.mount mi).fmiHashAvl ∧ n ∉ D ++ [np] := fun n hn =>
      ⟨(hin n (.tail _ hn)).1, by
        simpa [(hin n (.tail _ hn)).2] using fun h : n = np => hnot (h ▸ hn)⟩
    rw [List.map_cons, Cache.run, drainState_drain hfl hidx ht hnp hD, Option.some_bind,
      drainState_run hfl hidx ht hnd hin', List.append_assoc, List.singleton_append]

/-- With no other thread inside the file, a thread that enters a function of it meets no
lock. -/
theorem Quiet.lock_setPc {pc pc' : Pc} (hq : Quiet s t) (ht : s.threads[t]? = some pc)
    {u : Tid} {pu : Pc} (hu : (s.setPc t pc').threads[u]? = some pu) (hl : pc'.lock = none) :
    pu.lock = none := by
  rw [Cache.setPc, getElem?_setPc ht] at hu
  split_ifs at hu with h
  · cases hu; exact hl
  · exact (Pc.isIdle_tentative (hq u pu h hu)).2

/-- `fusefs_destroy_table`'s entry: with no other thread inside the file, it takes `mi`'s
writer lock and starts the drain with the whole index still to come. -/
theorem destroyTable_enter (hq : Quiet s t) (hidle : s.idle t) :
    s.run [.destroyTable t mi, .run t] = some (s.drainState t mi []) := by
  obtain ⟨pc, ht, -⟩ := idle_iff.mp hidle
  have hlf : (s.setPc t (.dtEnter mi)).lockFree mi :=
    lockFree_iff.mpr fun _ _ hu => by simp [hq.lock_setPc ht hu rfl]
  have h₂ : (s.setPc t (.dtEnter mi)).step (.run t) = some (s.drainState t mi []) := by
    rw [Cache.step_run (setPc_self ht), Cache.runPc, if_pos hlf, Cache.setPc_setPc]
    simp [Cache.drainState]
  have h₁ : s.step (.destroyTable t mi) = some (s.setPc t (.dtEnter mi)) := if_pos hidle
  simp only [Cache.run, h₁, h₂, Option.some_bind]

/-- `avl_destroy_nodes` has handed over the whole index: the drain ends, `rw_exit`, and the
thread goes on to `rlist`. -/
theorem drainState_done (ht : t < s.threads.length) {D : List Node}
    (hD : ∀ n ∈ (s.mount mi).fmiHashAvl, n ∈ D) :
    (s.drainState t mi D).step (.run t) = some ((s.drained mi (D.filter (· ∈ s.fusefreelist))).setPc t
      (dtNext (D.filter (· ∈ s.fusefreelist)).reverse)) := by
  have hpc : (s.drainState t mi D).threads[t]? = some (.dtDrain mi
      ((s.mount mi).fmiHashAvl.filter (· ∉ D)) (D.filter (· ∈ s.fusefreelist)).reverse) := by
    simp [Cache.drainState, Cache.drained, ht]
  rw [Cache.step_run hpc, Cache.runPc, if_pos (List.filter_eq_nil_iff.mpr (by simpa using hD)),
    Cache.drainState, Cache.setPc_setPc]

end Drain

/-! ## The final loop of `fusefs_destroy_table` -/

/-- A node once `fusefs_addfree` has run on it with no `r_count` and `RHASHED` clear:
`sn_inactive` has dropped the credential and the path, and `sn_destroy_node` has freed it,
unless another holder keeps the vnode, which then only loses the freelist's count. -/
def Fusenode.reap (x : Fusenode) : Fusenode :=
  if 1 < x.vCount then { x with rCred := false, nRpath := none, nRplen := 0, vCount := x.vCount - 1 }
  else { x with rCred := false, nRpath := none, nRplen := 0, live := false }

namespace Cache

/-- `fusefs_addfree` run alone on a node whose `r_count` is zero and whose `RHASHED` is clear:
the destroy branch skips `sn_rmhash_locked`, calls `sn_inactive`, and then `sn_destroy_node`,
or drops one vnode count when another holder has one. -/
def addfreeUnhashed (s : Cache) (np : Node) : Cache :=
  let s₁ := s.snInactive np
  if 1 < (s₁.node np).vCount then s₁.vnRele np else s₁.snDestroyNode np

/-- The nodes of `R` that `sn_destroy_node` frees when `fusefs_addfree` runs on them: those
whose vnode has no other holder. -/
def destroyed (s : Cache) (R : List Node) : List Node := R.filter fun n => ¬ 1 < (s.node n).vCount

/-- The cache once `fusefs_addfree` has run, as `addfreeUnhashed`, on each node of `R`, in
any order: each node is reaped, and `fusenodenew` and the holds of each vfs lose the nodes
destroyed. -/
def reaped (s : Cache) (R : List Node) : Cache :=
  { s with
    node := fun n => if n ∈ R then (s.node n).reap else s.node n
    mount := fun m => { s.mount m with
      vfsHolds := (s.mount m).vfsHolds - (s.destroyed R).countP fun n => (s.node n).vVfsp = m }
    fusenodenew := s.fusenodenew - (s.destroyed R).length }

end Cache

section Reap

variable {s : Cache} {t : Tid} {np : Node} {k : AddfreeCont}

@[simp] theorem Fusenode.reap_rCount (x : Fusenode) : x.reap.rCount = x.rCount := by
  unfold Fusenode.reap; split_ifs <;> rfl

@[simp] theorem Fusenode.reap_rHashed (x : Fusenode) : x.reap.rHashed = x.rHashed := by
  unfold Fusenode.reap; split_ifs <;> rfl

theorem Cache.addfreeUnhashed_eq (s : Cache) (a : Node) : s.addfreeUnhashed a = { s with
    node := fun n => if n = a then (s.node a).reap else s.node n
    mount := fun m => { s.mount m with
      vfsHolds := (s.mount m).vfsHolds - if ¬ 1 < (s.node a).vCount ∧ (s.node a).vVfsp = m then 1 else 0 }
    fusenodenew := s.fusenodenew - if ¬ 1 < (s.node a).vCount then 1 else 0 } := by
  unfold Cache.addfreeUnhashed
  by_cases hv : 1 < (s.node a).vCount
  · rw [if_pos (by simpa using hv)]
    refine Cache.ext ?_ ?_ rfl ?_ rfl rfl rfl rfl rfl rfl rfl
    · funext n; by_cases h : n = a <;> simp [h, hv, Fusenode.reap]
    · funext m; simp [hv]
    · simp [hv]
  · rw [if_neg (by simpa using hv)]
    refine Cache.ext ?_ ?_ rfl ?_ rfl rfl rfl rfl rfl rfl rfl
    · funext n; by_cases h : n = a <;> simp [h, hv, Fusenode.reap]
    · funext m
      by_cases h : m = (s.node a).vVfsp
      · subst h; simp [hv]
      · simp [h, Ne.symm h, hv]
    · simp [hv]

@[simp] theorem Cache.reaped_nil (s : Cache) : s.reaped [] = s := by
  ext1 <;> simp [Cache.reaped, Cache.destroyed]

theorem Cache.reaped_perm (s : Cache) {R R' : List Node} (h : R.Perm R') : s.reaped R = s.reaped R' := by
  simp only [Cache.reaped, Cache.destroyed, h.mem_iff, (h.filter _).countP_eq, (h.filter _).length_eq]

/-- `fusefs_addfree` on one more node. -/
theorem Cache.reaped_snoc (s : Cache) {R : List Node} {a : Node} (ha : a ∉ R) :
    (s.reaped R).addfreeUnhashed a = s.reaped (R ++ [a]) := by
  have hna : (s.reaped R).node a = s.node a := if_neg ha
  have hdes : s.destroyed (R ++ [a]) = s.destroyed R ++ if 1 < (s.node a).vCount then [] else [a] := by
    by_cases hv : 1 < (s.node a).vCount
    · simp [Cache.destroyed, hv]
    · simp [Cache.destroyed, hv, Nat.le_of_not_lt hv]
  rw [Cache.addfreeUnhashed_eq, hna]
  refine Cache.ext ?_ ?_ rfl ?_ rfl rfl rfl rfl rfl rfl rfl
  · funext n
    by_cases h : n = a
    · subst h; simp [Cache.reaped]
    · simp [Cache.reaped, h]
  · funext m
    simp only [Cache.reaped, hdes]
    split_ifs <;> simp_all [Nat.sub_sub]
  · simp only [Cache.reaped, hdes]
    split_ifs <;> simp [Nat.sub_sub]

theorem Cache.addfreeUnhashed_setPc (s : Cache) (t : Tid) (pc : Pc) (a : Node) :
    (s.setPc t pc).addfreeUnhashed a = (s.addfreeUnhashed a).setPc t pc := by
  dsimp only [Cache.addfreeUnhashed]
  exact (apply_ite (fun x => Cache.setPc x t pc) (1 < ((s.snInactive a).node a).vCount)
    ((s.snInactive a).vnRele a) ((s.snInactive a).snDestroyNode a)).symm

/-- `fusefs_addfree` run alone on a node with no `r_count` and `RHASHED` clear takes five
steps: the `r_count` test, the `RHASHED` tests of the destroy condition and of the destroy
branch, `sn_inactive`, and the `v_count` recheck with `sn_destroy_node`. -/
theorem addfreeUnhashed_run (ht : s.threads[t]? = some (.afCount np k))
    (hc : (s.node np).rCount = 0) (hh : (s.node np).rHashed = false) :
    s.run (List.replicate 5 (.run t)) = some ((s.addfreeUnhashed np).setPc t k.ret) := by
  have hh' : ∀ pc, ¬ ((s.setPc t pc).node np).rHashed = true := fun _ => by simp [hh]
  have h₁ : s.step (.run t) = some (s.setPc t (.afHashed np k)) := by
    rw [Cache.step_run ht, Cache.runPc, if_pos hc]
  have h₂ : (s.setPc t (.afHashed np k)).step (.run t) = some (s.setPc t (.afDestroy np k)) := by
    rw [Cache.step_run (setPc_self ht), Cache.runPc, if_neg (hh' _), Cache.setPc_setPc]
  have h₃ : (s.setPc t (.afDestroy np k)).step (.run t) = some (s.setPc t (.afInactive np k)) := by
    rw [Cache.step_run (setPc_self ht), Cache.runPc, if_neg (hh' _), Cache.setPc_setPc]
  have h₄ : (s.setPc t (.afInactive np k)).step (.run t) =
      some ((s.snInactive np).setPc t (.afRecheck np k)) := by
    rw [Cache.step_run (setPc_self ht), Cache.runPc]
    exact congrArg some (Cache.setPc_setPc (s.snInactive np) t _ _)
  have h₅ : ((s.snInactive np).setPc t (.afRecheck np k)).step (.run t) =
      some ((s.addfreeUnhashed np).setPc t k.ret) := by
    rw [Cache.step_run (setPc_self (s := s.snInactive np) ht), Cache.runPc,
      ← Cache.setPc_setPc (s.addfreeUnhashed np) t (.afRecheck np k), ← Cache.addfreeUnhashed_setPc]
    dsimp only [Cache.addfreeUnhashed]
    exact (apply_ite (fun x => some (Cache.setPc x t k.ret)) _ _ _).symm
  simp only [List.replicate, Cache.run, h₁, h₂, h₃, h₄, h₅, Option.some_bind]

@[simp] theorem Cache.addfreeUnhashed_rCount (s : Cache) (a n : Node) :
    ((s.addfreeUnhashed a).node n).rCount = (s.node n).rCount := by
  rw [Cache.addfreeUnhashed_eq]; by_cases h : n = a <;> simp [h]

@[simp] theorem Cache.addfreeUnhashed_rHashed (s : Cache) (a n : Node) :
    ((s.addfreeUnhashed a).node n).rHashed = (s.node n).rHashed := by
  rw [Cache.addfreeUnhashed_eq]; by_cases h : n = a <;> simp [h]

@[simp] theorem Cache.addfreeUnhashed_threads (s : Cache) (a : Node) :
    (s.addfreeUnhashed a).threads = s.threads := by
  rw [Cache.addfreeUnhashed_eq]

/-- **`fusefs_destroy_table`'s final loop**, run alone: `fusefs_addfree` on each node of
`rlist` in turn, each with no `r_count` and `RHASHED` clear, five steps a node. -/
theorem dtNext_run {t : Tid} : ∀ {s : Cache} {L : List Node}, t < s.threads.length →
    (∀ n ∈ L, (s.node n).rCount = 0 ∧ (s.node n).rHashed = false) →
    (s.setPc t (dtNext L)).run (List.replicate (5 * L.length) (.run t)) =
      some ((L.foldl Cache.addfreeUnhashed s).setPc t .idle)
  | _, [], _, _ => rfl
  | s, a :: L, ht, hL => by
    have ht' : (s.setPc t (dtNext (a :: L))).threads[t]? = some (.afCount a (.destroyTable L)) := by
      simp [ht, dtNext]
    rw [List.length_cons, Nat.mul_succ, Nat.add_comm, List.replicate_add, Cache.run_append,
      addfreeUnhashed_run ht' (hL a (.head _)).1 (hL a (.head _)).2, Option.some_bind,
      Cache.addfreeUnhashed_setPc, Cache.setPc_setPc, AddfreeCont.ret, List.foldl_cons]
    exact dtNext_run (by simpa using ht) fun n hn => by simpa using hL n (.tail _ hn)

theorem foldl_addfreeUnhashed (s : Cache) : ∀ {R L : List Node}, (R ++ L).Nodup →
    L.foldl Cache.addfreeUnhashed (s.reaped R) = s.reaped (R ++ L)
  | R, [], _ => by rw [List.append_nil]; rfl
  | R, a :: L, hnd => by
    have ha : a ∉ R := fun h => List.disjoint_of_nodup_append hnd h (.head _)
    rw [List.foldl_cons, s.reaped_snoc ha, foldl_addfreeUnhashed s (by simpa using hnd),
      List.append_assoc, List.singleton_append]

/-- The final loop on distinct nodes, in closed form. -/
theorem foldl_addfreeUnhashed_eq (s : Cache) {L : List Node} (hL : L.Nodup) :
    L.foldl Cache.addfreeUnhashed s = s.reaped L := by
  simpa using foldl_addfreeUnhashed s (R := []) hL

end Reap

/-! ## `fusefs_destroy_table`, the whole call -/

namespace Cache

/-- The nodes of `mi`'s index that are on the freelist: those `fusefs_destroy_table` drains. -/
def freeIndexed (s : Cache) (mi : Mount) : List Node :=
  (s.mount mi).fmiHashAvl.filter (· ∈ s.fusefreelist)

/-- What `fusefs_destroy_table` is for, when no node it drains has an `r_count`: the nodes of
`mi`'s index that are on the freelist leave the index and the freelist, lose `RHASHED`, and are
destroyed unless another holder keeps their vnode; the busy nodes stay indexed. -/
def tableDestroyed (s : Cache) (mi : Mount) : Cache :=
  (s.drained mi (s.freeIndexed mi)).reaped (s.freeIndexed mi)

theorem drained_perm (s : Cache) (mi : Mount) {R R' : List Node} (h : R.Perm R') :
    s.drained mi R = s.drained mi R' := by
  simp only [drained, h.mem_iff]

end Cache

/-- `fusefs_destroy_table`'s steps when `avl_destroy_nodes` hands the nodes over in the order
`ord`: the call and `rw_enter`, one drain step a node, `rw_exit`, and five steps of
`fusefs_addfree` for each of the `k` nodes on `rlist`. -/
def destroyTableSteps (t : Tid) (mi : Mount) (ord : List Node) (k : ℕ) : List Action :=
  [.destroyTable t mi, .run t] ++ ord.map (.drain t) ++ .run t :: List.replicate (5 * k) (.run t)

section Destroy

variable {s : Cache} {t : Tid} {mi : Mount}

/-- **`fusefs_destroy_table` run alone, in any drain order**, reaches `tableDestroyed`. -/
theorem run_destroyTableSteps (hs : Inv s) (hq : Quiet s t) (hidle : s.idle t) {ord : List Node}
    (hord : ord.Perm (s.mount mi).fmiHashAvl) (hc : ∀ n ∈ s.freeIndexed mi, (s.node n).rCount = 0) :
    s.run (destroyTableSteps t mi ord (s.freeIndexed mi).length) =
      some ((s.tableDestroyed mi).setPc t .idle) := by
  obtain ⟨pc, hpc, -⟩ := idle_iff.mp hidle
  have ht : t < s.threads.length := (List.getElem?_eq_some_iff.mp hpc).1
  have hidx := hs.index_nodup mi
  set R := ord.filter (· ∈ s.fusefreelist) with hRdef
  have hR : R.Perm (s.freeIndexed mi) := hord.filter _
  have hnd : R.reverse.Nodup := List.nodup_reverse.mpr ((hord.nodup_iff.mpr hidx).filter _)
  have hL : ∀ n ∈ R.reverse, ((s.drained mi R).node n).rCount = 0 ∧
      ((s.drained mi R).node n).rHashed = false := fun n hn => by
    rw [List.mem_reverse] at hn
    simp [Cache.drained, hn, hc n (hR.subset hn)]
  rw [destroyTableSteps, Cache.run_append, Cache.run_append, destroyTable_enter hq hidle,
    Option.some_bind, drainState_run (List.nodup_append.mp hs.owned).1 hidx ht
      (hord.nodup_iff.mpr hidx) fun n hn => ⟨hord.subset hn, List.not_mem_nil n⟩,
    Option.some_bind, List.nil_append, Cache.run, drainState_done ht fun n hn => hord.mem_iff.mpr hn,
    Option.some_bind, ← hRdef, ← hR.length_eq, ← List.length_reverse, dtNext_run (s := s.drained mi R) ht hL,
    foldl_addfreeUnhashed_eq _ hnd, Cache.reaped_perm _ ((List.reverse_perm R).trans hR),
    Cache.drained_perm s mi hR, Cache.tableDestroyed]

theorem mem_freeIndexed {n : Node} :
    n ∈ s.freeIndexed mi ↔ n ∈ (s.mount mi).fmiHashAvl ∧ n ∈ s.fusefreelist := by
  simp [Cache.freeIndexed]

theorem tableDestroyed_index (m : Mount) : ((s.tableDestroyed mi).mount m).fmiHashAvl =
    if m = mi then (s.mount mi).fmiHashAvl.filter (· ∉ s.fusefreelist) else (s.mount m).fmiHashAvl := by
  simp only [Cache.tableDestroyed, Cache.reaped, Cache.drained]
  split_ifs with h
  · subst h
    exact List.filter_congr fun n hn => by simp [mem_freeIndexed, hn]
  · rfl

theorem tableDestroyed_fusefreelist :
    (s.tableDestroyed mi).fusefreelist = s.fusefreelist.filter (· ∉ (s.mount mi).fmiHashAvl) :=
  List.filter_congr fun n hn => by simp [mem_freeIndexed, hn]

theorem tableDestroyed_node (n : Node) : (s.tableDestroyed mi).node n =
    if n ∈ s.freeIndexed mi then { s.node n with rHashed := false }.reap else s.node n := by
  simp only [Cache.tableDestroyed, Cache.reaped, Cache.drained]
  split_ifs <;> rfl

theorem Inv.run : ∀ {s s' : Cache} {as : List Action}, Inv s → s.run as = some s' → Inv s'
  | _, _, [], hs, h => by cases h; exact hs
  | _, _, _ :: _, hs, h => by
    obtain ⟨s₁, h₁, h⟩ := Option.bind_eq_some.mp h
    exact (hs.step h₁).run h

/-- **`fusefs_destroy_table` run alone**, when no node it drains has an `r_count`, and in any
order `avl_destroy_nodes` hands the index over: the call returns; the index keeps exactly its
busy nodes, untouched and still `RHASHED`, and the other indexes are unchanged; the freelist
loses exactly the nodes of the index, keeping its order; each node drained is unlinked,
without `RHASHED`, and destroyed exactly when no other holder keeps its vnode. -/
theorem destroy_table_unlinks_free (hs : Inv s) (hq : Quiet s t) (hidle : s.idle t)
    {ord : List Node} (hord : ord.Perm (s.mount mi).fmiHashAvl)
    (hc : ∀ n ∈ (s.mount mi).fmiHashAvl, n ∈ s.fusefreelist → (s.node n).rCount = 0) :
    ∃ s', s.run (destroyTableSteps t mi ord (s.freeIndexed mi).length) = some s' ∧ Inv s' ∧
      s'.threads[t]? = some .idle ∧
      (s'.mount mi).fmiHashAvl = (s.mount mi).fmiHashAvl.filter (· ∉ s.fusefreelist) ∧
      (∀ m, m ≠ mi → (s'.mount m).fmiHashAvl = (s.mount m).fmiHashAvl) ∧
      s'.fusefreelist = s.fusefreelist.filter (· ∉ (s.mount mi).fmiHashAvl) ∧
      (∀ n ∈ (s.mount mi).fmiHashAvl, n ∈ s.fusefreelist →
        (s'.node n).rHashed = false ∧ ((s'.node n).live ↔ 1 < (s.node n).vCount)) ∧
      (∀ n, (n ∈ (s.mount mi).fmiHashAvl → n ∉ s.fusefreelist) → s'.node n = s.node n) := by
  have hrun := run_destroyTableSteps hs hq hidle hord fun n hn => hc n (mem_freeIndexed.mp hn).1
    (mem_freeIndexed.mp hn).2
  obtain ⟨pc, hpc, -⟩ := idle_iff.mp hidle
  refine ⟨_, hrun, hs.run hrun, setPc_self (s := s.tableDestroyed mi) hpc, ?_, fun m hm => ?_,
    tableDestroyed_fusefreelist, fun n hn hf => ?_, fun n hn => ?_⟩
  · simp [tableDestroyed_index]
  · simp [tableDestroyed_index, hm]
  · have hlive := hs.refsLive n (by simp [Cache.refs, hf])
    rw [Cache.setPc, tableDestroyed_node, if_pos (mem_freeIndexed.mpr ⟨hn, hf⟩)]
    unfold Fusenode.reap
    split_ifs with hv <;> simp [hv, hlive]
  · rw [Cache.setPc, tableDestroyed_node, if_neg fun h => hn (mem_freeIndexed.mp h).1 (mem_freeIndexed.mp h).2]

theorem destroy_table_unlinks_free_pooledA :
    Inv pooledA ∧ Quiet pooledA 0 ∧ pooledA.idle 0 ∧
      ∃ s', pooledA.run (destroyTableSteps 0 0 [0] 1) = some s' ∧ (s'.mount 0).fmiHashAvl = [] ∧
        s'.fusefreelist = [] ∧ (s'.node 0).live = false := by
  obtain ⟨hth, hidx, hfl, hc, hv⟩ := pooledA_facts
  have hs := reachable_pooledA.inv
  have hq := quiet_of_threads_eq hth
  have hidle : pooledA.idle 0 := by simp [Cache.idle, hth, Pc.isIdle]
  obtain ⟨s', hrun, -, -, hidx', -, hfl', hnode, -⟩ := destroy_table_unlinks_free hs hq hidle
    (by rw [hidx]) (by simp [hidx, hc])
  have hk : (pooledA.freeIndexed 0).length = 1 := by simp [Cache.freeIndexed, hidx, hfl]
  refine ⟨hs, hq, hidle, s', hk ▸ hrun, by simp [hidx', hidx, hfl], by simp [hfl', hidx, hfl], ?_⟩
  simpa [hv] using (hnode 0 (by simp [hidx]) (by simp [hfl])).2

end Destroy

/-! ## `fusefs_check_table` -/

namespace Cache

/-- The busy checks `fusefs_check_table` makes of a node, one each: not on the freelist,
cached pages that are dirty, an `r_count`. -/
def busyChecks (s : Cache) (np : Node) : ℕ :=
  (if np ∈ s.fusefreelist then 0 else 1) +
    (if (s.node np).vPages && (s.node np).rDirty then 1 else 0) +
    if 0 < (s.node np).rCount then 1 else 0

/-- `fusefs_check_table`'s loop over the nodes `rest`, with `busycnt` so far: the root is
skipped, and without `fusefs_check_table_debug` the loop breaks once `busycnt` is not zero. -/
def checkWalk (s : Cache) (rtnp : Node) (busycnt : ℕ) : List Node → ℕ
  | [] => busycnt
  | np :: rest =>
    if np = rtnp then s.checkWalk rtnp busycnt rest
    else if busycnt + s.busyChecks np ≠ 0 ∧ s.checkTableDebug = false then busycnt + s.busyChecks np
    else s.checkWalk rtnp (busycnt + s.busyChecks np) rest

/-- What `fusefs_check_table` is for: with `fusefs_check_table_debug`, the number of busy
checks that the nodes of `mi`'s index other than `rtnp` fail; without it, the number that the
first such node failing one fails, or zero. -/
def checkTableResult (s : Cache) (mi : Mount) (rtnp : Node) : ℕ :=
  let counts := ((s.mount mi).fmiHashAvl.filter (· ≠ rtnp)).map s.busyChecks
  if s.checkTableDebug then counts.sum else (counts.find? (· ≠ 0)).getD 0

end Cache

section Check

variable {s : Cache} {t : Tid} {mi : Mount} {rtnp : Node}

theorem busyChecks_eq_zero_iff {np : Node} : s.busyChecks np = 0 ↔
    np ∈ s.fusefreelist ∧ ((s.node np).vPages && (s.node np).rDirty) = false ∧ (s.node np).rCount = 0 := by
  unfold Cache.busyChecks
  split_ifs <;> simp_all [Nat.pos_iff_ne_zero]

theorem checkWalk_debug (hd : s.checkTableDebug = true) : ∀ (b : ℕ) (l : List Node),
    s.checkWalk rtnp b l = b + ((l.filter (· ≠ rtnp)).map s.busyChecks).sum
  | b, [] => rfl
  | b, np :: rest => by
    by_cases hr : np = rtnp
    · simp [Cache.checkWalk, hr, checkWalk_debug hd b rest]
    · simp [Cache.checkWalk, hr, hd, checkWalk_debug hd _ rest, Nat.add_assoc]

theorem checkWalk_first (hd : s.checkTableDebug = false) : ∀ l : List Node,
    s.checkWalk rtnp 0 l = ((((l.filter (· ≠ rtnp)).map s.busyChecks).find? (· ≠ 0)).getD 0)
  | [] => rfl
  | np :: rest => by
    by_cases hr : np = rtnp
    · simp [Cache.checkWalk, hr, checkWalk_first hd rest]
    · by_cases hc : s.busyChecks np = 0
      · simp [Cache.checkWalk, hr, hc, checkWalk_first hd rest]
      · simp [Cache.checkWalk, hr, hc, hd]

theorem checkWalk_index : s.checkWalk rtnp 0 (s.mount mi).fmiHashAvl = s.checkTableResult mi rtnp := by
  cases hd : s.checkTableDebug
  · simp [Cache.checkTableResult, hd, checkWalk_first hd]
  · simp [Cache.checkTableResult, hd, checkWalk_debug hd]

theorem getD_find?_ne_zero_eq_zero_iff (l : List ℕ) :
    (l.find? (· ≠ 0)).getD 0 = 0 ↔ ∀ c ∈ l, c = 0 := by
  cases h : l.find? (· ≠ 0) with
  | none => simpa using List.find?_eq_none.mp h
  | some c =>
    have hc : c ≠ 0 := by simpa using List.find?_some h
    exact ⟨fun h0 => absurd h0 hc, fun hz => absurd (hz c (List.mem_of_find?_eq_some h)) hc⟩

/-- The result is zero exactly when every node of the index but the root passes every busy
check. -/
theorem checkTableResult_eq_zero_iff : s.checkTableResult mi rtnp = 0 ↔
    ∀ n ∈ (s.mount mi).fmiHashAvl, n ≠ rtnp → n ∈ s.fusefreelist ∧
      ((s.node n).vPages && (s.node n).rDirty) = false ∧ (s.node n).rCount = 0 := by
  have hall : (∀ c ∈ ((s.mount mi).fmiHashAvl.filter (· ≠ rtnp)).map s.busyChecks, c = 0) ↔
      ∀ n ∈ (s.mount mi).fmiHashAvl, n ≠ rtnp → s.busyChecks n = 0 := by
    simp only [List.forall_mem_map, List.mem_filter, ne_eq, decide_not, Bool.not_eq_true',
      decide_eq_false_iff_not, and_imp]
  simp only [← busyChecks_eq_zero_iff, ← hall]
  unfold Cache.checkTableResult
  split_ifs
  · exact List.sum_eq_zero_iff
  · exact getD_find?_ne_zero_eq_zero_iff _

theorem step_setPc (ht : t < s.threads.length) (pc : Pc) :
    (s.setPc t pc).step (.run t) = (s.setPc t pc).runPc t pc :=
  Cache.step_run (by simp [ht])

/-- The three unlocked reads of one node, and the break test. -/
theorem ctRead_run (ht : t < s.threads.length) (mi : Mount) (rtnp np : Node) (rest : List Node) (b : ℕ) :
    (s.setPc t (.ctRead mi rtnp np rest b .freef)).run (List.replicate 3 (.run t)) =
      some (s.setPc t (if b + s.busyChecks np ≠ 0 ∧ s.checkTableDebug = false
        then .checked (b + s.busyChecks np) else .ctWalk mi rtnp rest (b + s.busyChecks np))) := by
  have h₁ : (s.setPc t (.ctRead mi rtnp np rest b .freef)).step (.run t) = some (s.setPc t
      (.ctRead mi rtnp np rest (b + if np ∈ s.fusefreelist then 0 else 1) .dirty)) := by
    rw [step_setPc ht, Cache.runPc, Cache.setPc_setPc]; rfl
  have h₂ : ∀ b₁, (s.setPc t (.ctRead mi rtnp np rest b₁ .dirty)).step (.run t) = some (s.setPc t
      (.ctRead mi rtnp np rest (b₁ + if (s.node np).vPages && (s.node np).rDirty then 1 else 0) .count)) :=
    fun _ => by rw [step_setPc ht, Cache.runPc, Cache.setPc_setPc]; rfl
  have h₃ : ∀ b₂, (s.setPc t (.ctRead mi rtnp np rest b₂ .count)).step (.run t) = some (s.setPc t
      (let b₃ := b₂ + if 0 < (s.node np).rCount then 1 else 0
       if b₃ ≠ 0 ∧ s.checkTableDebug = false then .checked b₃ else .ctWalk mi rtnp rest b₃)) :=
    fun _ => by rw [step_setPc ht, Cache.runPc, Cache.setPc_setPc]; rfl
  simp only [List.replicate, Cache.run, h₁, h₂, h₃, Option.some_bind, Cache.busyChecks, Nat.add_assoc]

/-- `fusefs_check_table`'s loop run alone returns `checkWalk`, after at most four steps a
node and one more. -/
theorem ctWalk_run (ht : t < s.threads.length) (mi : Mount) (rtnp : Node) : ∀ (rest : List Node) (b : ℕ),
    ∃ n, n ≤ 4 * rest.length + 1 ∧ (s.setPc t (.ctWalk mi rtnp rest b)).run
      (List.replicate n (.run t)) = some (s.setPc t (.checked (s.checkWalk rtnp b rest)))
  | [], b => ⟨1, le_refl _, by
      rw [List.replicate, Cache.run, step_setPc ht, Cache.runPc, Cache.setPc_setPc]; rfl⟩
  | np :: rest, b => by
    have h₁ := step_setPc (s := s) ht (.ctWalk mi rtnp (np :: rest) b)
    rw [Cache.runPc, Cache.setPc_setPc] at h₁
    by_cases hr : np = rtnp
    · rw [if_pos hr] at h₁
      obtain ⟨n, hn, hrun⟩ := ctWalk_run ht mi rtnp rest b
      refine ⟨n + 1, by simp only [List.length_cons]; omega, ?_⟩
      rw [List.replicate_succ, Cache.run, h₁, Option.some_bind, hrun, Cache.checkWalk, if_pos hr]
    · rw [if_neg hr] at h₁
      have h₂ := ctRead_run ht mi rtnp np rest b
      have h4 : List.replicate 4 (Action.run t) = .run t :: List.replicate 3 (.run t) := rfl
      by_cases hb : b + s.busyChecks np ≠ 0 ∧ s.checkTableDebug = false
      · rw [if_pos hb] at h₂
        refine ⟨4, by simp only [List.length_cons]; omega, ?_⟩
        rw [h4, Cache.run, h₁, Option.some_bind, h₂, Cache.checkWalk, if_neg hr, if_pos hb]
      · rw [if_neg hb] at h₂
        obtain ⟨n, hn, hrun⟩ := ctWalk_run ht mi rtnp rest (b + s.busyChecks np)
        refine ⟨4 + n, by simp only [List.length_cons]; omega, ?_⟩
        rw [List.replicate_add, Cache.run_append, h4, Cache.run, h₁, Option.some_bind, h₂,
          Option.some_bind, hrun, Cache.checkWalk, if_neg hr, if_neg hb]

/-- `fusefs_check_table` run alone returns `checkTableResult` and changes nothing else. -/
theorem run_checkTable (mi : Mount) (rtnp : Node) (hq : Quiet s t) (hidle : s.idle t) :
    ∃ n, n ≤ 4 * (s.mount mi).fmiHashAvl.length + 2 ∧
      s.run (.checkTable t mi rtnp :: List.replicate n (.run t)) =
        some (s.setPc t (.checked (s.checkTableResult mi rtnp))) := by
  obtain ⟨pc, hpc, -⟩ := idle_iff.mp hidle
  have ht : t < s.threads.length := (List.getElem?_eq_some_iff.mp hpc).1
  have hwf : (s.setPc t (.ctEnter mi rtnp)).writerFree mi :=
    writerFree_iff.mpr fun _ _ hu => by simp [hq.lock_setPc hpc hu rfl]
  have h₁ : s.step (.checkTable t mi rtnp) = some (s.setPc t (.ctEnter mi rtnp)) := if_pos hidle
  have h₂ : (s.setPc t (.ctEnter mi rtnp)).step (.run t) =
      some (s.setPc t (.ctWalk mi rtnp (s.mount mi).fmiHashAvl 0)) := by
    rw [step_setPc ht, Cache.runPc, if_pos hwf, Cache.setPc_setPc]; rfl
  obtain ⟨n, hn, hrun⟩ := ctWalk_run ht mi rtnp (s.mount mi).fmiHashAvl 0
  refine ⟨n + 1, by omega, ?_⟩
  rw [List.replicate_succ, Cache.run, h₁, Option.some_bind, Cache.run, h₂, Option.some_bind, hrun,
    checkWalk_index]

/-- **`fusefs_check_table` run alone** returns after at most four steps a node of the index
and two more, changing nothing but the caller's program counter; what it returns is zero
exactly when every node of the index but the root is on the freelist, has no dirty cached
pages and no `r_count`. -/
theorem check_table_returns (mi : Mount) (rtnp : Node) (hq : Quiet s t) (hidle : s.idle t) :
    ∃ n r, n ≤ 4 * (s.mount mi).fmiHashAvl.length + 2 ∧
      s.run (.checkTable t mi rtnp :: List.replicate n (.run t)) = some (s.setPc t (.checked r)) ∧
      (r = 0 ↔ ∀ n ∈ (s.mount mi).fmiHashAvl, n ≠ rtnp → n ∈ s.fusefreelist ∧
        ((s.node n).vPages && (s.node n).rDirty) = false ∧ (s.node n).rCount = 0) := by
  obtain ⟨n, hn, hrun⟩ := run_checkTable mi rtnp hq hidle
  exact ⟨n, _, hn, hrun, checkTableResult_eq_zero_iff⟩

theorem check_table_returns_pooledA :
    Quiet pooledA 0 ∧ pooledA.idle 0 ∧
      ∃ n, pooledA.run (.checkTable 0 0 1 :: List.replicate n (.run 0)) =
        some (pooledA.setPc 0 (.checked 0)) := by
  obtain ⟨hth, hidx, hfl, hc, -⟩ := pooledA_facts
  have hq := quiet_of_threads_eq hth
  have hidle : pooledA.idle 0 := by simp [Cache.idle, hth, Pc.isIdle]
  obtain ⟨n, r, -, hrun, hr⟩ := check_table_returns 0 1 hq hidle
  refine ⟨hq, hidle, n, ?_⟩
  rwa [hr.mpr fun n hn _ => ?_] at hrun
  obtain rfl : n = 0 := by simpa [hidx] using hn
  refine ⟨by simp [hfl], ?_, hc⟩
  decide

/-- **Unmount**: `fusefs_check_table` and then `fusefs_destroy_table`, each run alone, with a
root that is not on the freelist.  When the check returns zero, the teardown, in any order
`avl_destroy_nodes` chooses, leaves no node but the root in the mount's index. -/
theorem unmount_leaves_root (hs : Inv s) (hq : Quiet s t) (hidle : s.idle t)
    (hroot : rtnp ∉ s.fusefreelist) :
    ∃ n s₁ r, s.run (.checkTable t mi rtnp :: List.replicate n (.run t)) = some s₁ ∧
      s₁.threads[t]? = some (.checked r) ∧
      (r = 0 → ∀ ord : List Node, ord.Perm (s₁.mount mi).fmiHashAvl →
        ∃ s₂, s₁.run (destroyTableSteps t mi ord (s₁.freeIndexed mi).length) = some s₂ ∧
          ∀ n ∈ (s₂.mount mi).fmiHashAvl, n = rtnp) := by
  obtain ⟨pc, hpc, -⟩ := idle_iff.mp hidle
  obtain ⟨n, -, hrun⟩ := run_checkTable mi rtnp hq hidle
  refine ⟨n, _, _, hrun, setPc_self hpc, fun h0 ord hord => ?_⟩
  have hall := checkTableResult_eq_zero_iff.mp h0
  have hc : ∀ n ∈ (s.setPc t (.checked (s.checkTableResult mi rtnp))).freeIndexed mi,
      (s.node n).rCount = 0 := fun n hn => by
    obtain ⟨hidx, hfl⟩ := mem_freeIndexed.mp hn
    exact (hall n hidx fun h => hroot (h ▸ hfl)).2.2
  refine ⟨_, run_destroyTableSteps (hs.run hrun) (hq.setPc hpc _)
    (idle_iff.mpr ⟨_, setPc_self hpc, rfl⟩) hord hc, fun n hn => ?_⟩
  rw [Cache.setPc, tableDestroyed_index, if_pos rfl, List.mem_filter] at hn
  by_contra hne
  exact absurd (hall n hn.1 hne).1 (by simpa using hn.2)

/-- Thread 0 holds node 0 under "a", as the root, and has released node 1 under "b", which
`fusefs_addfree` pools. -/
def rootA : List Action :=
  holdA ++ [.findcreate 0 0 [] 0 [98] .fattr0, .run 0, .run 0, .run 0, .run 0,
    .release 0 1, .run 0, .run 0, .run 0, .run 0]

/-- The root, node 0, in the index and off the freelist; node 1 indexed and pooled. -/
def rootedA : Cache := ((Cache.init 2 false 1).run rootA).getD (Cache.init 2 false 1)

theorem unmount_leaves_root_rootedA :
    Inv rootedA ∧ Quiet rootedA 0 ∧ rootedA.idle 0 ∧ 0 ∉ rootedA.fusefreelist ∧
      0 ∈ (rootedA.mount 0).fmiHashAvl ∧ rootedA.checkTableResult 0 0 = 0 ∧
      ∃ n s₁ r, rootedA.run (.checkTable 0 0 0 :: List.replicate n (.run 0)) = some s₁ ∧
        s₁.threads[0]? = some (.checked r) ∧
        (r = 0 → ∀ ord : List Node, ord.Perm (s₁.mount 0).fmiHashAvl →
          ∃ s₂, s₁.run (destroyTableSteps 0 0 ord (s₁.freeIndexed 0).length) = some s₂ ∧
            ∀ n ∈ (s₂.mount 0).fmiHashAvl, n = 0) := by
  have hth : rootedA.threads = [.idle] := by decide
  have hs := ((Reachable.init 2 false 1).run
    (show (Cache.init 2 false 1).run rootA = some rootedA from rfl)).inv
  have hq := quiet_of_threads_eq hth
  have hidle : rootedA.idle 0 := by simp [Cache.idle, hth, Pc.isIdle]
  have hroot : 0 ∉ rootedA.fusefreelist := by decide
  exact ⟨hs, hq, hidle, hroot, by decide, by decide, unmount_leaves_root hs hq hidle hroot⟩

end Check

end FusefsNode
