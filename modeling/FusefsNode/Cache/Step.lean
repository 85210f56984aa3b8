import FusefsNode.Cache.State

/-!
# One step of the node cache

`Cache.runPc s t pc` is the atomic step thread `t` takes from program counter `pc`: a region
of `fusefs_node.c` run under one lock, or one unlocked read of `r_freef`, `r_flags` or
`r_count`.  It is `none` while the step is blocked on a mount's index lock.  Code between
two such points that touches only the thread's own node (a popped victim, a shell not yet
linked, a node inside `fusefs_addfree`) is part of the step before it.

`Cache.step` adds the steps that are not a thread's next statement: a caller entering a
function of the file, `avl_destroy_nodes` handing a node to `fusefs_destroy_table` (in any
order: the tree's shape is not modelled), the pager taking and dropping references, code
outside the file changing the fields it owns, and an unmount setting `VFS_UNMOUNTED`.
`fusefs_attrcache_prune` reads only what its reader lock protects and changes nothing this
model keeps, so it is one step.

`Reachable` is the set of states some interleaving reaches from `fusefs_subrinit`.
-/

namespace FusefsNode

/-- `fusefs_destroy_table`'s final loop: `fusefs_addfree` on each node of `rlist`. -/
def dtNext : List Node → Pc
  | [] => .idle
  | np :: rlist => .afCount np (.destroyTable rlist)

/-- Where a thread goes when `sn_hashfind` has its reference to `np`. -/
def HashfindCont.done (mi : Mount) (np : Node) : HashfindCont → Pc
  | .lookup | .found => .returned (some np) false
  | .lostRace shell => .afCount shell (.lostRace mi np)

/-- Where a thread goes when `fusefs_addfree` returns. -/
def AddfreeCont.ret : AddfreeCont → Pc
  | .inactive => .idle
  | .lostRace mi tnp => .lostRet mi tnp
  | .destroyTable rlist => dtNext rlist
  | .reclaim => .rcLoop

namespace Cache

variable (s : Cache)

/-- The thread is idle: it may call into the file. -/
def idle (t : Tid) : Bool := (s.threads[t]?.map Pc.isIdle).getD false

/-- The atomic step of thread `t` from `pc`; `none` when it is blocked. -/
def runPc (t : Tid) : Pc → Option Cache
  | .idle | .returned _ _ | .checked _ => none
  | .fcEnter mi rpath create =>
    if s.writerFree mi then
      match avlFind s.hdr (s.mount mi).fmiHashAvl rpath.hdr with
      | some np => some (s.setPc t (.hfFreef mi np (if create then .found else .lookup)))
      | none => some (s.setPc t (if create then .mkFree mi rpath else .returned none false))
    else none
  | .hfFreef mi np k =>
    some (s.setPc t (if np ∈ s.fusefreelist then .hfLock mi np k else .hfHold mi np k))
  | .hfLock mi np k =>
    if np ∈ s.fusefreelist then some (((s.snRmfree np).addHeld np).setPc t (k.done mi np))
    else some (s.setPc t (.hfHold mi np k))
  | .hfHold mi np k => some (((s.vnHold np).addHeld np).setPc t (k.done mi np))
  | .mkFree mi rpath =>
    match s.fusefreelist with
    | np :: _ =>
      if s.nfusenode ≤ s.fusenodenew then some ((s.snRmfree np).setPc t (.mkFlags mi rpath np))
      else some (s.setPc t (.mkAlloc mi rpath))
    | [] => some (s.setPc t (.mkAlloc mi rpath))
  | .mkAlloc mi rpath =>
    some ((s.allocNode.initShell s.nextNode mi).setPc t (.mkInsert mi rpath s.nextNode))
  | .mkFlags mi rpath np =>
    some (s.setPc t (if (s.node np).rHashed then .mkUnhash mi rpath np else .mkInactive mi rpath np))
  | .mkUnhash mi rpath np =>
    if s.lockFree (s.node np).nMount then
      if 1 < (s.node np).vCount then some ((s.vnRele np).setPc t (.fcEnter mi rpath true))
      else some ((s.snRmhashLocked np).setPc t (.mkInactive mi rpath np))
    else none
  | .mkInactive mi rpath np => some ((s.snInactive np).setPc t (.mkReinit mi rpath np))
  | .mkReinit mi rpath np =>
    if 1 < (s.node np).vCount then some ((s.vnRele np).setPc t (.fcEnter mi rpath true))
    else some (((s.releaseVfs np).initShell np mi).setPc t (.mkInsert mi rpath np))
  | .mkInsert mi rpath np =>
    if s.lockFree mi then
      match avlFind s.hdr (s.mount mi).fmiHashAvl rpath.hdr with
      | some tnp => some (s.setPc t (.hfFreef mi tnp (.lostRace np)))
      | none => some (((s.snAddhashLocked np rpath).addHeld np).setPc t (.returned (some np) true))
    else none
  | .lostRet mi tnp => if s.writerFree mi then some (s.setPc t (.returned (some tnp) false)) else none
  | .afCount np k =>
    some (s.setPc t (if (s.node np).rCount = 0 then .afHashed np k else .afPool np k))
  | .afHashed np k =>
    some (s.setPc t (if (s.node np).rHashed then .afOthers np k else .afDestroy np k))
  | .afOthers np k =>
    some (s.setPc t (if (s.node np).rError ≠ 0 ∨ (s.mount (s.node np).vVfsp).vfsUnmounted ∨
      s.nfusenode < s.fusenodenew then .afDestroy np k else .afPool np k))
  | .afDestroy np k =>
    some (s.setPc t (if (s.node np).rHashed then .afUnhash np k else .afInactive np k))
  | .afUnhash np k =>
    if s.lockFree (s.node np).vVfsp then
      if 1 < (s.node np).vCount then some ((s.vnRele np).setPc t k.ret)
      else some ((s.snRmhashLocked np).setPc t (.afInactive np k))
    else none
  | .afInactive np k => some ((s.snInactive np).setPc t (.afRecheck np k))
  | .afRecheck np k =>
    if 1 < (s.node np).vCount then some ((s.vnRele np).setPc t k.ret)
    else some ((s.snDestroyNode np).setPc t k.ret)
  | .afPool np k =>
    if s.lockFree (s.node np).vVfsp then
      if 1 < (s.node np).vCount then some ((s.vnRele np).setPc t k.ret)
      else some ((s.addfreeInsert np).setPc t k.ret)
    else none
  | .rcLoop =>
    match s.fusefreelist with
    | np :: _ => some ((s.snRmfree np).setPc t (.rcFlags np))
    | [] => some (s.setPc t .idle)
  | .rcFlags np =>
    some (s.setPc t (if (s.node np).rHashed then .rcUnhash np else .afCount np .reclaim))
  | .rcUnhash np =>
    if s.lockFree (s.node np).nMount then
      if 1 < (s.node np).vCount then some ((s.vnRele np).setPc t .rcLoop)
      else some ((s.snRmhashLocked np).setPc t (.afCount np .reclaim))
    else none
  | .dtEnter mi =>
    if s.lockFree mi then some (s.setPc t (.dtDrain mi (s.mount mi).fmiHashAvl [])) else none
  | .dtDrain _ rest rlist => if rest = [] then some (s.setPc t (dtNext rlist)) else none
  | .ctEnter mi rtnp =>
    if s.writerFree mi then some (s.setPc t (.ctWalk mi rtnp (s.mount mi).fmiHashAvl 0)) else none
  | .ctWalk mi rtnp rest busycnt =>
    match rest with
    | [] => some (s.setPc t (.checked busycnt))
    | np :: rest =>
      some (s.setPc t (if np = rtnp then .ctWalk mi rtnp rest busycnt
        else .ctRead mi rtnp np rest busycnt .freef))
  | .ctRead mi rtnp np rest busycnt .freef =>
    some (s.setPc t (.ctRead mi rtnp np rest
      (busycnt + if np ∈ s.fusefreelist then 0 else 1) .dirty))
  | .ctRead mi rtnp np rest busycnt .dirty =>
    some (s.setPc t (.ctRead mi rtnp np rest
      (busycnt + if (s.node np).vPages && (s.node np).rDirty then 1 else 0) .count))
  | .ctRead mi rtnp np rest busycnt .count =>
    let busycnt := busycnt + if 0 < (s.node np).rCount then 1 else 0
    some (s.setPc t (if busycnt ≠ 0 ∧ s.checkTableDebug = false then .checked busycnt
      else .ctWalk mi rtnp rest busycnt))

/-- One iteration of `fusefs_destroy_table`'s drain on `np`: a node on the freelist is
unlinked from it, loses `RHASHED` and goes on `rlist`; a busy node stays in the tree (it is
re-added to the temporary tree, which replaces the old one). -/
def drainOne (t : Tid) (mi : Mount) (np : Node) (rest rlist : List Node) : Cache :=
  if np ∈ s.fusefreelist then
    let s₁ := s.snRmfree np
    ((s₁.setMount mi { s₁.mount mi with fmiHashAvl := (s₁.mount mi).fmiHashAvl.erase np }).setNode
      np { s₁.node np with rHashed := false }).setPc t (.dtDrain mi (rest.erase np) (np :: rlist))
  else s.setPc t (.dtDrain mi (rest.erase np) rlist)

theorem drainOne_of_mem {t : Tid} {mi : Mount} {np : Node} {rest rlist : List Node}
    (hfl : np ∈ s.fusefreelist) (hm : (s.node np).nMount = mi) (hh : (s.node np).rHashed) :
    s.drainOne t mi np rest rlist =
      ((s.snRmfree np).snRmhashLocked np).setPc t (.dtDrain mi (rest.erase np) (np :: rlist)) := by
  subst hm; simp only [drainOne, if_pos hfl, snRmhashLocked, snRmfree, hh]; simp [setPc, setNode, setMount]

theorem drainOne_of_not_mem {t : Tid} {mi : Mount} {np : Node} {rest rlist : List Node}
    (hfl : np ∉ s.fusefreelist) :
    s.drainOne t mi np rest rlist = s.setPc t (.dtDrain mi (rest.erase np) rlist) := by
  simp only [drainOne, if_neg hfl]

end Cache

/-- Everything that can happen next. -/
inductive Action
  /-- Thread `t` takes its next step. -/
  | run (t : Tid)
  /-- `avl_destroy_nodes` hands `np` to the drain of thread `t`. -/
  | drain (t : Tid) (np : Node)
  /-- Thread `t` calls `fusefs_node_findcreate(mi, dirnm, dirlen, name, nmlen, sep, fap)`. -/
  | findcreate (t : Tid) (mi : Mount) (dirnm : Path) (sep : UInt8) (name : Path) (fap : Fap)
  /-- Thread `t` drops a caller's reference to `np` (`VN_RELE`, then `fusefs_inactive`). -/
  | release (t : Tid) (np : Node)
  /-- Thread `t`, holding `np`, calls `fusefs_rmhash(np)`. -/
  | rmhash (t : Tid) (np : Node)
  /-- Thread `t`, holding `top`, calls `fusefs_attrcache_prune(top)`. -/
  | prune (t : Tid) (top : Node)
  /-- The allocator calls `fusefs_kmem_reclaim` in thread `t`. -/
  | reclaim (t : Tid)
  /-- Unmount calls `fusefs_destroy_table` in thread `t`. -/
  | destroyTable (t : Tid) (mi : Mount)
  /-- Unmount calls `fusefs_check_table(vfsp, rtnp)` in thread `t`. -/
  | checkTable (t : Tid) (mi : Mount) (rtnp : Node)
  /-- The pager takes a reference to an indexed node. -/
  | pagerHold (np : Node)
  /-- Thread `t` drops one of the pager's references (`VN_RELE`). -/
  | pagerRele (t : Tid) (np : Node)
  /-- Code outside this file that holds `np` sets the fields it owns. -/
  | outside (np : Node) (rCount : ℕ) (rError : ℤ) (rCred rDirty vPages : Bool)
  /-- The vfs of `mi` is marked `VFS_UNMOUNTED`. -/
  | unmount (mi : Mount)

namespace Cache

variable (s : Cache)

/-- `VN_RELE` of a reference its owner has already given up: decrement, or call
`fusefs_inactive` and so `fusefs_addfree` when it is the last one. -/
def vnReleInactive (t : Tid) (np : Node) : Cache :=
  if 1 < (s.node np).vCount then s.vnRele np else s.setPc t (.afCount np .inactive)

/-- The state after `a`, or `none` when `a` cannot happen now. -/
def step : Action → Option Cache
  | .run t => s.threads[t]?.bind (s.runPc t)
  | .drain t np =>
    match s.threads[t]? with
    | some (.dtDrain mi rest rlist) => if np ∈ rest then some (s.drainOne t mi np rest rlist) else none
    | _ => none
  | .findcreate t mi dirnm sep name fap =>
    if s.idle t then some (s.setPc t (.fcEnter mi (findcreateRpath dirnm sep name) (fap ≠ .null)))
    else none
  | .release t np =>
    if s.idle t ∧ np ∈ s.held then some ({ s with held := s.held.erase np }.vnReleInactive t np)
    else none
  | .rmhash t np =>
    if s.idle t ∧ np ∈ s.held ∧ (s.node np).rHashed ∧ s.lockFree (s.node np).nMount then
      some (s.snRmhashLocked np)
    else none
  | .prune t top =>
    if s.idle t ∧ top ∈ s.held ∧ s.writerFree (s.node top).nMount then some s else none
  | .reclaim t => if s.idle t then some (s.setPc t .rcLoop) else none
  | .destroyTable t mi => if s.idle t then some (s.setPc t (.dtEnter mi)) else none
  | .checkTable t mi rtnp => if s.idle t then some (s.setPc t (.ctEnter mi rtnp)) else none
  | .pagerHold np =>
    if (s.node np).live ∧ (s.node np).rHashed then some ({ s with paged := np :: s.paged }.vnHold np)
    else none
  | .pagerRele t np =>
    if s.idle t ∧ np ∈ s.paged then some ({ s with paged := s.paged.erase np }.vnReleInactive t np)
    else none
  | .outside np rCount rError rCred rDirty vPages =>
    if np ∈ s.held ∨ np ∈ s.paged then
      some (s.setNode np { s.node np with rCount, rError, rCred, rDirty, vPages })
    else none
  | .unmount mi => some (s.setMount mi { s.mount mi with vfsUnmounted := true })

/-- A thread's step is its program counter's step.  Rewriting with this and then
`Cache.runPc` reduces the one branch the program counter selects. -/
theorem step_run {s : Cache} {t : Tid} {pc : Pc} (ht : s.threads[t]? = some pc) :
    s.step (.run t) = s.runPc t pc := by
  simp only [step, ht, Option.some_bind]

/-- The state after the actions `as`, taken one after another. -/
def run : Cache → List Action → Option Cache
  | s, [] => some s
  | s, a :: as => (s.step a).bind fun s' => run s' as

theorem run_append (as bs : List Action) :
    s.run (as ++ bs) = (s.run as).bind fun s' => s'.run bs := by
  induction as generalizing s with
  | nil => rfl
  | cons a as ih =>
    simp only [List.cons_append, run]
    cases s.step a with
    | none => rfl
    | some s' => exact ih s'

end Cache

/-- The states some interleaving reaches from `fusefs_subrinit`, for any target `nfusenode`,
any setting of `fusefs_check_table_debug` and any number of threads. -/
inductive Reachable : Cache → Prop
  | init (nfusenode : ℕ) (checkTableDebug : Bool) (n : ℕ) :
      Reachable (Cache.init nfusenode checkTableDebug n)
  | step {s s' : Cache} (a : Action) : Reachable s → s.step a = some s' → Reachable s'

end FusefsNode
