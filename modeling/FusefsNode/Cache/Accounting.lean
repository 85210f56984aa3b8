import FusefsNode.Cache.Reachable

/-!
# What every reachable state satisfies

The fields of `Inv`, read back in the terms of `fusefs_node.c`:

* `vCount_eq_owners`: `v_count` counts the callers' and the pager's references, the
  freelist's, and the threads that hold the node tentatively;
* `population_balanced`: `fusenodenew` and the `VFS_HOLD`s count the live nodes.
-/

namespace FusefsNode

variable {s : Cache}

/-- With no node held tentatively twice, the count of `n` among the tentative holds is the
number of threads that hold it. -/
theorem count_flatMap_tentative {n : Node} :
    ∀ {l : List Pc}, (l.flatMap Pc.tentative).Nodup →
      (l.flatMap Pc.tentative).count n = l.countP fun pc => n ∈ pc.tentative
  | [], _ => rfl
  | pc :: l, hn => by
    rw [List.flatMap_cons, List.nodup_append] at hn
    rw [List.flatMap_cons, List.count_append, List.count_eq_of_nodup hn.1,
      count_flatMap_tentative hn.2.1, List.countP_cons, Nat.add_comm]
    simp

/-- A thread calls `fusefs_node_findcreate` on "a" and runs it to its return. -/
def createA : List Action := [.findcreate 0 0 [] 0 [97] .fattr0, .run 0, .run 0, .run 0, .run 0]

/-- One thread has created node 0 under "a" and holds it. -/
def createdA : Cache := ((Cache.init 1 false 1).run createA).getD (Cache.init 1 false 1)

theorem reachable_createdA : Reachable createdA :=
  (Reachable.init 1 false 1).run (show (Cache.init 1 false 1).run createA = some createdA from rfl)

/-- Every live node's `v_count` is the number of its owners: the callers' and the pager's
references, one for the freelist, and one per thread that holds it tentatively.  So a held
node is never on the freelist, and an indexed node has a count. -/
theorem vCount_eq_owners (h : Reachable s) :
    (∀ n, (s.node n).live → (s.node n).vCount =
      s.held.count n + s.paged.count n + (if n ∈ s.fusefreelist then 1 else 0) +
        s.threads.countP fun pc => n ∈ pc.tentative) ∧
    (∀ n ∈ s.held, n ∉ s.fusefreelist) ∧
    ∀ m, ∀ n ∈ (s.mount m).fmiHashAvl, 1 ≤ (s.node n).vCount := by
  have hs := h.inv
  refine ⟨fun n hn => ?_, hs.heldFree, hs.pos⟩
  have hfree := hs.owned.of_append_left
  rw [hs.count n hn, Cache.refs, List.count_append, List.count_append, List.count_append,
    List.count_eq_of_nodup hfree, count_flatMap_tentative hs.owned.of_append_right]

theorem vCount_eq_owners_createdA :
    Reachable createdA ∧
    (∀ n, (createdA.node n).live → (createdA.node n).vCount =
      createdA.held.count n + createdA.paged.count n + (if n ∈ createdA.fusefreelist then 1 else 0) +
        createdA.threads.countP fun pc => n ∈ pc.tentative) ∧
    (∀ n ∈ createdA.held, n ∉ createdA.fusefreelist) ∧
    ∀ m, ∀ n ∈ (createdA.mount m).fmiHashAvl, 1 ≤ (createdA.node n).vCount :=
  ⟨reachable_createdA, vCount_eq_owners reachable_createdA⟩

/-- `fusenodenew` is the number of live nodes, and each vfs's `VFS_HOLD`s the number of live
nodes on it; a live node keeps both at least one, so neither decrement wraps. -/
theorem population_balanced (h : Reachable s) :
    s.fusenodenew = s.liveCount ∧ (∀ m, (s.mount m).vfsHolds = s.vfsCount m) ∧
    ∀ n, (s.node n).live → 1 ≤ s.fusenodenew ∧ 1 ≤ (s.mount (s.node n).vVfsp).vfsHolds := by
  have hs := h.inv
  exact ⟨hs.allocated, hs.vfsHeld, fun n hn => ⟨one_le_fusenodenew hs hn, one_le_vfsHolds hs hn⟩⟩

theorem population_balanced_createdA :
    Reachable createdA ∧
    createdA.fusenodenew = createdA.liveCount ∧
    (∀ m, (createdA.mount m).vfsHolds = createdA.vfsCount m) ∧
    ∀ n, (createdA.node n).live →
      1 ≤ createdA.fusenodenew ∧ 1 ≤ (createdA.mount (createdA.node n).vVfsp).vfsHolds :=
  ⟨reachable_createdA, population_balanced reachable_createdA⟩

end FusefsNode
