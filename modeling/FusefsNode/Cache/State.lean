import FusefsNode.Avl
import Mathlib.Logic.Function.Basic

/-!
# The state of the node cache

The shared state of `fusefs_node.c` and the control state of every thread running its code.

* Each node carries the fields of its `fusenode_t` and of its vnode that the file reads or
  writes.  Nodes are named by natural numbers in the order `kmem_cache_alloc` handed them
  out; a node that `sn_destroy_node` freed is no longer `live`, and no name is reused.
* Each mount carries its AVL tree (`Avl.lean`), the `VFS_UNMOUNTED` flag of its vfs and the
  number of `VFS_HOLD`s this file took on the vfs and has not released.  A mount is
  identified with its vfs: `VFTOFMI` and `fmi_vfsp` are inverse.
* The freelist is the queue `Freelist.lean` shows the pointer code to implement.
* `held` and `paged` are the vnode references held by callers of
  `fusefs_node_findcreate` and by the pager.
* Every thread has a program counter `Pc`.  A thread's hold on a mount's index lock is read
  off its program counter (`Pc.lock`), so the reader/writer lock is exactly the set of
  threads inside its critical sections.

Fields that no modelled function reads are left out (`n_ino`, `n_fid`, the attribute cache,
`r_rwlock`, `r_lkserlock`, `r_cv`).
-/

namespace FusefsNode

/-- A node, `fusenode_t *`. -/
abbrev Node := ℕ

/-- A mount, `fusemntinfo_t *`, identified with its `vfs_t`. -/
abbrev Mount := ℕ

/-- A kernel thread running code of this file. -/
abbrev Tid := ℕ

/-- The fields of a `fusenode_t` and of its vnode that the file uses. -/
structure Fusenode where
  /-- Allocated from `fusenode_cache` and not yet returned by `sn_destroy_node`. -/
  live : Bool := false
  nMount : Mount := 0
  nRpath : Option Path := none
  nRplen : ℕ := 0
  /-- `RHASHED` in `r_flags`. -/
  rHashed : Bool := false
  /-- `RDIRTY` in `r_flags`. -/
  rDirty : Bool := false
  rCount : ℕ := 0
  rError : ℤ := 0
  /-- `r_cred != NULL`. -/
  rCred : Bool := false
  vCount : ℕ := 0
  vVfsp : Mount := 0
  /-- `vn_has_cached_data`. -/
  vPages : Bool := false
  deriving DecidableEq, Repr

/-- The fields of a mount and of its vfs that the file uses. -/
structure Fusemntinfo where
  fmiHashAvl : List Node := []
  /-- `VFS_UNMOUNTED` in `vfs_flag`. -/
  vfsUnmounted : Bool := false
  /-- The `VFS_HOLD`s this file took on the vfs and has not released. -/
  vfsHolds : ℕ := 0
  deriving DecidableEq, Repr

/-- The attributes argument of `fusefs_node_findcreate`: `NULL`, `&fusefs_fattr0`, or real
attributes, which only code outside this file reads. -/
inductive Fap
  | null
  | fattr0
  | attrs
  deriving DecidableEq, Repr

/-- Where `sn_hashfind` returns to once it holds its reference. -/
inductive HashfindCont
  /-- `fusefs_node_findcreate` with `fap == NULL`. -/
  | lookup
  /-- `make_fusenode` at `start`. -/
  | found
  /-- `make_fusenode`'s re-check under the writer lock, holding the shell `np`. -/
  | lostRace (np : Node)
  deriving DecidableEq, Repr

/-- Where `fusefs_addfree` returns to. -/
inductive AddfreeCont
  /-- `fusefs_inactive`, after the last reference went. -/
  | inactive
  /-- `make_fusenode` after losing the race to `tnp`. -/
  | lostRace (mi : Mount) (tnp : Node)
  /-- `fusefs_destroy_table`, with the rest of its list `rlist`. -/
  | destroyTable (rlist : List Node)
  /-- `fusefs_node_reclaim`'s loop. -/
  | reclaim
  deriving DecidableEq, Repr

/-- The three unlocked reads `fusefs_check_table` makes of each node. -/
inductive CtField
  | freef
  | dirty
  | count
  deriving DecidableEq, Repr

/-- A thread's program counter.  Each constructor is a point before an atomic step: a region
run under one lock, or an unlocked read of `r_freef`, `r_flags` or `r_count`. -/
inductive Pc
  | idle
  /-- `fusefs_node_findcreate` has returned `np`, with `make_fusenode`'s `newnode`. -/
  | returned (np : Option Node) (newnode : Bool)
  /-- `rw_enter(READER)` and `avl_find` at the start of `sn_hashfind`, in
  `fusefs_node_findcreate` or at `make_fusenode`'s `start`. -/
  | fcEnter (mi : Mount) (rpath : Path) (create : Bool)
  /-- `sn_hashfind`: the unlocked test `np->r_freef != NULL`. -/
  | hfFreef (mi : Mount) (np : Node) (k : HashfindCont)
  /-- `sn_hashfind`: the test again under `fusefreelist_lock`, and `sn_rmfree`. -/
  | hfLock (mi : Mount) (np : Node) (k : HashfindCont)
  /-- `sn_hashfind`: `VN_HOLD`. -/
  | hfHold (mi : Mount) (np : Node) (k : HashfindCont)
  /-- `make_fusenode`: the freelist test under `fusefreelist_lock`. -/
  | mkFree (mi : Mount) (rpath : Path)
  /-- `make_fusenode`: `kmem_cache_alloc`, `vn_alloc`, and the new shell. -/
  | mkAlloc (mi : Mount) (rpath : Path)
  /-- `make_fusenode`: the unlocked test of the victim's `RHASHED`. -/
  | mkFlags (mi : Mount) (rpath : Path) (np : Node)
  /-- `make_fusenode`: under the victim's mount's writer lock, the `v_count` test and
  `sn_rmhash_locked`. -/
  | mkUnhash (mi : Mount) (rpath : Path) (np : Node)
  /-- `make_fusenode`: `sn_inactive` on the victim. -/
  | mkInactive (mi : Mount) (rpath : Path) (np : Node)
  /-- `make_fusenode`: the `v_count` test under `v_lock`, then the victim becomes a shell. -/
  | mkReinit (mi : Mount) (rpath : Path) (np : Node)
  /-- `make_fusenode`: `rw_enter(WRITER)`, the re-check, and `sn_addhash_locked`. -/
  | mkInsert (mi : Mount) (rpath : Path) (np : Node)
  /-- `make_fusenode` after losing: `rw_enter(READER)` and return `tnp`. -/
  | lostRet (mi : Mount) (tnp : Node)
  /-- `fusefs_addfree`: the unlocked test `np->r_count == 0`. -/
  | afCount (np : Node) (k : AddfreeCont)
  /-- `fusefs_addfree`: the unlocked test of `RHASHED` in the destroy condition. -/
  | afHashed (np : Node) (k : AddfreeCont)
  /-- `fusefs_addfree`: `r_error`, `VFS_UNMOUNTED` and `fusenodenew > nfusenode`. -/
  | afOthers (np : Node) (k : AddfreeCont)
  /-- `fusefs_addfree`'s destroy branch: the unlocked test of `RHASHED`. -/
  | afDestroy (np : Node) (k : AddfreeCont)
  /-- `fusefs_addfree`: under the writer lock, the `v_count` test and `sn_rmhash_locked`. -/
  | afUnhash (np : Node) (k : AddfreeCont)
  /-- `fusefs_addfree`: `sn_inactive`. -/
  | afInactive (np : Node) (k : AddfreeCont)
  /-- `fusefs_addfree`: the `v_count` recheck, then `sn_destroy_node`. -/
  | afRecheck (np : Node) (k : AddfreeCont)
  /-- `fusefs_addfree`: under the writer lock, the `v_count` test and the tail insertion. -/
  | afPool (np : Node) (k : AddfreeCont)
  /-- `fusefs_node_reclaim`: the loop test and `sn_rmfree` under `fusefreelist_lock`. -/
  | rcLoop
  /-- `fusefs_node_reclaim`: the unlocked test of `RHASHED`. -/
  | rcFlags (np : Node)
  /-- `fusefs_node_reclaim`: under the writer lock, the `v_count` test and
  `sn_rmhash_locked`. -/
  | rcUnhash (np : Node)
  /-- `fusefs_destroy_table`: `rw_enter(WRITER)`. -/
  | dtEnter (mi : Mount)
  /-- `fusefs_destroy_table`'s drain, `rest` still in the old tree, `rlist` to destroy. -/
  | dtDrain (mi : Mount) (rest rlist : List Node)
  /-- `fusefs_check_table`: `rw_enter(READER)`. -/
  | ctEnter (mi : Mount) (rtnp : Node)
  /-- `fusefs_check_table`'s walk, `rest` the nodes after the current one. -/
  | ctWalk (mi : Mount) (rtnp : Node) (rest : List Node) (busycnt : ℕ)
  /-- `fusefs_check_table`: one unlocked read of `np`. -/
  | ctRead (mi : Mount) (rtnp np : Node) (rest : List Node) (busycnt : ℕ) (field : CtField)
  /-- `fusefs_check_table` has returned `busycnt`. -/
  | checked (busycnt : ℕ)
  deriving DecidableEq, Repr

/-- Whether the thread holds the writer lock while `sn_hashfind` finishes. -/
def HashfindCont.writer : HashfindCont → Bool
  | .lostRace _ => true
  | _ => false

/-- The index lock a thread at `pc` holds, and whether as writer. -/
def Pc.lock : Pc → Option (Mount × Bool)
  | .hfFreef mi _ k | .hfLock mi _ k | .hfHold mi _ k => some (mi, k.writer)
  | .dtDrain mi _ _ => some (mi, true)
  | .ctWalk mi _ _ _ | .ctRead mi _ _ _ _ _ => some (mi, false)
  | _ => none

/-- A thread that runs no code of this file and may call into it. -/
def Pc.isIdle : Pc → Bool
  | .idle | .returned _ _ | .checked _ => true
  | _ => false

/-- The shared state, with the globals `nfusenode` and `fusefs_check_table_debug`. -/
structure Cache where
  node : Node → Fusenode
  mount : Mount → Fusemntinfo
  fusefreelist : List Node
  fusenodenew : ℕ
  nextNode : Node
  held : List Node
  paged : List Node
  threads : List Pc
  nfusenode : ℕ
  checkTableDebug : Bool
  /-- Some `sn_rmhash_locked` ran on a node without `RHASHED`: its `ASSERT` failed and
  `avl_remove` ran on a node in no tree, through its stale links.  The trees are not modelled
  past that call. -/
  rmhashStale : Bool := false

/-- The state after `fusefs_subrinit`, with `n` threads. -/
def Cache.init (nfusenode : ℕ) (checkTableDebug : Bool) (n : ℕ) : Cache where
  node _ := {}
  mount _ := {}
  fusefreelist := []
  fusenodenew := 0
  nextNode := 0
  held := []
  paged := []
  threads := List.replicate n .idle
  nfusenode := nfusenode
  checkTableDebug := checkTableDebug

namespace Cache

variable (s : Cache)

/-- The header `fusefs_node_cmp` reads of a node. -/
def hdr (n : Node) : FusefsNodeHdr := ⟨(s.node n).nRpath.getD [], (s.node n).nRplen⟩

/-- No thread holds `mi`'s index lock as writer: `rw_enter(READER)` proceeds. -/
def writerFree (mi : Mount) : Bool := s.threads.all fun pc => pc.lock ≠ some (mi, true)

/-- No thread holds `mi`'s index lock: `rw_enter(WRITER)` proceeds. -/
def lockFree (mi : Mount) : Bool := s.threads.all fun pc => (pc.lock.map Prod.fst) ≠ some mi

/-! ## Updates -/

/-- Thread `t` moves to `pc`. -/
@[simp] def setPc (t : Tid) (pc : Pc) : Cache := { s with threads := s.threads.set t pc }

/-- Change one node. -/
def setNode (n : Node) (x : Fusenode) : Cache := { s with node := Function.update s.node n x }

/-- Change one mount. -/
def setMount (m : Mount) (x : Fusemntinfo) : Cache := { s with mount := Function.update s.mount m x }

/-- A caller of `fusefs_node_findcreate` now holds a reference to `n`. -/
@[simp] def addHeld (n : Node) : Cache := { s with held := n :: s.held }

/-- `sn_rmfree`, on the abstract freelist. -/
@[simp] def snRmfree (n : Node) : Cache := { s with fusefreelist := s.fusefreelist.erase n }

/-- `VN_HOLD`. -/
def vnHold (n : Node) : Cache := s.setNode n { s.node n with vCount := (s.node n).vCount + 1 }

/-- `vp->v_count--` under `v_lock`. -/
def vnRele (n : Node) : Cache := s.setNode n { s.node n with vCount := (s.node n).vCount - 1 }

/-- `sn_rmhash_locked`: `ASSERT(RHASHED)`, `avl_remove` from the tree of `n_mount`, and clear
`RHASHED`.  On a node without `RHASHED` the `ASSERT` fails; the model records it in
`rmhashStale`, and what `avl_remove` does to the tree there is not modelled. -/
def snRmhashLocked (n : Node) : Cache :=
  let m := (s.node n).nMount
  { (s.setMount m { s.mount m with fmiHashAvl := (s.mount m).fmiHashAvl.erase n }).setNode n
      { s.node n with rHashed := false } with
    rmhashStale := s.rmhashStale || !(s.node n).rHashed }

/-- `make_fusenode` fills in `n_rpath` and `n_rplen`, then `sn_addhash_locked` inserts the
node into the tree of its `n_mount` at the position found for `rpath` and sets `RHASHED`. -/
def snAddhashLocked (n : Node) (rpath : Path) : Cache :=
  let s₁ := s.setNode n { s.node n with nRpath := some rpath, nRplen := rpath.length }
  let m := (s₁.node n).nMount
  (s₁.setMount m { s₁.mount m with
      fmiHashAvl := avlInsert s₁.hdr rpath.hdr n (s₁.mount m).fmiHashAvl }).setNode n
    { s₁.node n with rHashed := true }

/-- `sn_inactive`: drop the cached credential and the path. -/
def snInactive (n : Node) : Cache :=
  s.setNode n { s.node n with rCred := false, nRpath := none, nRplen := 0 }

/-- `sn_destroy_node`: `fusenodenew` down by one, the vnode and the node freed, `VFS_RELE`. -/
def snDestroyNode (n : Node) : Cache :=
  let m := (s.node n).vVfsp
  ({ s with fusenodenew := s.fusenodenew - 1 }.setMount m
      { s.mount m with vfsHolds := (s.mount m).vfsHolds - 1 }).setNode n
    { s.node n with live := false }

/-- The tail insertion of `fusefs_addfree`, on the abstract freelist. -/
@[simp] def addfreeInsert (n : Node) : Cache := { s with fusefreelist := s.fusefreelist ++ [n] }

/-- `make_fusenode` builds a shell for mount `mi` in node `n`: `bzero`, the new locks,
`n_mount`, `VFS_HOLD(vfsp)`, `v_vfsp`, and a vnode count of one (`vn_alloc` or
`vn_reinit`); the vnode's pages are the vnode's own. -/
def initShell (n : Node) (mi : Mount) : Cache :=
  (s.setMount mi { s.mount mi with vfsHolds := (s.mount mi).vfsHolds + 1 }).setNode n
    { live := true, nMount := mi, vCount := 1, vVfsp := mi, vPages := (s.node n).vPages }

/-- `make_fusenode`'s fresh allocation: `kmem_cache_alloc`, `vn_alloc` and
`atomic_add_long(&fusenodenew, 1)`. -/
def allocNode : Cache :=
  { s with nextNode := s.nextNode + 1, fusenodenew := s.fusenodenew + 1,
           node := Function.update s.node s.nextNode {} }

/-- `make_fusenode`'s recycling of a victim after its checks: `vn_invalid`,
`VFS_RELE(vp->v_vfsp)` and `vn_reinit`. -/
def releaseVfs (n : Node) : Cache :=
  let m := (s.node n).vVfsp
  s.setMount m { s.mount m with vfsHolds := (s.mount m).vfsHolds - 1 }

/-! ## What each update does

Each update is restated as a record update whose node and mount functions say, field by
field, what changed; the fields a proof does not look at then simplify away. -/

variable {s}

@[simp] theorem hdr_apply (n : Node) :
    s.hdr n = ⟨(s.node n).nRpath.getD [], (s.node n).nRplen⟩ := rfl

@[simp] theorem vnHold_eq (n : Node) : s.vnHold n = { s with node := fun m =>
    { s.node m with vCount := (s.node m).vCount + if m = n then 1 else 0 } } := by
  simp only [vnHold, setNode]; congr 1; funext m
  by_cases h : m = n
  · subst h; simp
  · simp [h]

@[simp] theorem vnRele_eq (n : Node) : s.vnRele n = { s with node := fun m =>
    { s.node m with vCount := (s.node m).vCount - if m = n then 1 else 0 } } := by
  simp only [vnRele, setNode]; congr 1; funext m
  by_cases h : m = n
  · subst h; simp
  · simp [h]

@[simp] theorem snRmhashLocked_eq (n : Node) : s.snRmhashLocked n = { s with
    node := fun m => { s.node m with rHashed := (s.node m).rHashed && m ≠ n },
    mount := fun m => { s.mount m with fmiHashAvl :=
      if m = (s.node n).nMount then (s.mount m).fmiHashAvl.erase n else (s.mount m).fmiHashAvl },
    rmhashStale := s.rmhashStale || !(s.node n).rHashed } := by
  simp only [snRmhashLocked, setNode, setMount]; congr 1 <;> funext m
  · by_cases h : m = n
    · subst h; simp
    · simp [h]
  · by_cases h : m = (s.node n).nMount
    · subst h; simp
    · simp [h]

@[simp] theorem snAddhashLocked_eq (n : Node) (rpath : Path) : s.snAddhashLocked n rpath = { s with
    node := fun m => if m = n then
      { s.node n with nRpath := some rpath, nRplen := rpath.length, rHashed := true }
      else s.node m,
    mount := fun m => { s.mount m with fmiHashAvl := (if m = (s.node n).nMount then
        avlInsert (Function.update s.hdr n rpath.hdr) rpath.hdr n (s.mount m).fmiHashAvl
      else (s.mount m).fmiHashAvl) } } := by
  have hh : (s.setNode n { s.node n with nRpath := some rpath, nRplen := rpath.length }).hdr =
      Function.update s.hdr n rpath.hdr := by
    funext m
    by_cases h : m = n
    · subst h; simp [setNode, Path.hdr]
    · simp [h, setNode]
  simp only [snAddhashLocked]
  rw [hh]
  simp only [setNode, setMount, Function.update_same]
  congr 1 <;> funext m
  · by_cases h : m = n
    · subst h; simp
    · simp [h]
  · by_cases h : m = (s.node n).nMount
    · subst h; simp
    · simp [h]

@[simp] theorem snInactive_eq (n : Node) : s.snInactive n = { s with node := fun m =>
    if m = n then { s.node n with rCred := false, nRpath := none, nRplen := 0 } else s.node m } := by
  simp only [snInactive, setNode]; congr 1; funext m
  by_cases h : m = n
  · subst h; simp
  · simp [h]

@[simp] theorem snDestroyNode_eq (n : Node) : s.snDestroyNode n = { s with
    fusenodenew := s.fusenodenew - 1,
    node := fun m => { s.node m with live := (s.node m).live && m ≠ n },
    mount := fun m => { s.mount m with vfsHolds :=
      (s.mount m).vfsHolds - if m = (s.node n).vVfsp then 1 else 0 } } := by
  simp only [snDestroyNode, setNode, setMount]; congr 1 <;> funext m
  · by_cases h : m = n
    · subst h; simp
    · simp [h]
  · by_cases h : m = (s.node n).vVfsp
    · subst h; simp
    · simp [h]

@[simp] theorem initShell_eq (n : Node) (mi : Mount) : s.initShell n mi = { s with
    node := fun m => if m = n then
      { live := true, nMount := mi, vCount := 1, vVfsp := mi, vPages := (s.node n).vPages }
      else s.node m,
    mount := fun m => { s.mount m with vfsHolds :=
      (s.mount m).vfsHolds + if m = mi then 1 else 0 } } := by
  simp only [initShell, setNode, setMount]; congr 1 <;> funext m
  · by_cases h : m = n
    · subst h; simp
    · simp [h]
  · by_cases h : m = mi
    · subst h; simp
    · simp [h]

@[simp] theorem allocNode_eq : s.allocNode = { s with
    nextNode := s.nextNode + 1, fusenodenew := s.fusenodenew + 1,
    node := fun m => if m = s.nextNode then {} else s.node m } := by
  simp only [allocNode]; congr 1; funext m
  by_cases h : m = s.nextNode
  · subst h; simp
  · simp [h]

@[simp] theorem releaseVfs_eq (n : Node) : s.releaseVfs n = { s with
    mount := fun m => { s.mount m with vfsHolds :=
      (s.mount m).vfsHolds - if m = (s.node n).vVfsp then 1 else 0 } } := by
  simp only [releaseVfs, setMount]; congr 1; funext m
  by_cases h : m = (s.node n).vVfsp
  · subst h; simp
  · simp [h]

end Cache

end FusefsNode
