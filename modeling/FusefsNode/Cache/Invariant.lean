import FusefsNode.Cache.Step
import Mathlib.Data.List.Perm.Basic
import Mathlib.Data.List.Range

/-!
# The invariant of the node cache

What holds in every state an interleaving reaches (`Inv`), and the facts about threads and
locks that every preservation proof uses.

The central notion is who owns the vnode counts of a node.  Besides callers of
`fusefs_node_findcreate` (`held`) and the pager (`paged`), the freelist owns one count of
each node on it, and a thread owns one count of each node it works on without a caller:
a victim it popped off the freelist, a shell it has not linked yet, the node it runs
`fusefs_addfree` on, and the nodes `fusefs_destroy_table` drained (`Pc.tentative`).
`Cache.refs` lists all owners; the invariant says that `v_count` counts exactly them.

Every tentative node has one owner only: the freelist and the threads' tentative lists are
disjoint and without repetitions (`Inv.owned`).  This is what lets a thread change its own
node without a lock, and it is the disjointness the interference arguments of
`Preserve.lean` rest on.  A thread's program counter carries what the thread knows of the
shared state (`PcOk`): that the node `sn_hashfind` found is in the index whose lock it holds,
that its shell is not linked, that a node it unhashed stays unhashed.
-/

namespace FusefsNode

/-! ## Tentative references -/

/-- The nodes `fusefs_destroy_table` has drained and not yet passed to `fusefs_addfree`. -/
def AddfreeCont.tentative : AddfreeCont → List Node
  | .destroyTable rlist => rlist
  | _ => []

/-- The nodes whose vnode count a thread at `pc` owns on no caller's behalf. -/
def Pc.tentative : Pc → List Node
  | .hfFreef _ _ (.lostRace np) | .hfLock _ _ (.lostRace np) | .hfHold _ _ (.lostRace np) => [np]
  | .mkFlags _ _ np | .mkUnhash _ _ np | .mkInactive _ _ np | .mkReinit _ _ np
  | .mkInsert _ _ np => [np]
  | .afCount np k | .afHashed np k | .afOthers np k | .afDestroy np k | .afUnhash np k
  | .afInactive np k | .afRecheck np k | .afPool np k => np :: k.tentative
  | .rcFlags np | .rcUnhash np => [np]
  | .dtDrain _ _ rlist => rlist
  | _ => []

/-- The tentative nodes a thread at `pc` knows to be unlinked. -/
def Pc.unhashed : Pc → List Node
  | .mkInactive _ _ np | .mkReinit _ _ np => [np]
  | .afInactive np k | .afRecheck np k => np :: k.tentative
  | .afCount _ k | .afHashed _ k | .afOthers _ k | .afDestroy _ k | .afUnhash _ k
  | .afPool _ k => k.tentative
  | .dtDrain _ _ rlist => rlist
  | _ => []

/-- The shell a thread at `pc` built for mount `mi` and has not linked. -/
def Pc.shell : Pc → Option (Mount × Node)
  | .hfFreef mi _ (.lostRace np) | .hfLock mi _ (.lostRace np) | .hfHold mi _ (.lostRace np)
  | .mkInsert mi _ np => some (mi, np)
  | _ => none

/-- The node `sn_hashfind` found in the index of `mi`, whose lock the thread holds. -/
def Pc.found : Pc → Option (Mount × Node)
  | .hfFreef mi np _ | .hfLock mi np _ | .hfHold mi np _ => some (mi, np)
  | _ => none

theorem dtNext_tentative (rlist : List Node) : (dtNext rlist).tentative = rlist := by
  cases rlist <;> rfl

@[simp] theorem AddfreeCont.ret_tentative (k : AddfreeCont) : k.ret.tentative = k.tentative := by
  cases k with
  | destroyTable rlist => exact dtNext_tentative rlist
  | _ => rfl

theorem Pc.unhashed_subset (pc : Pc) : ∀ n ∈ pc.unhashed, n ∈ pc.tentative := by
  cases pc <;> simp [Pc.unhashed, Pc.tentative] <;> exact fun n hn => Or.inr hn

/-! ## The invariant -/

namespace Cache

variable (s : Cache)

/-- Every owner of a vnode count, once per count. -/
def refs : List Node := s.held ++ s.paged ++ s.fusefreelist ++ s.threads.flatMap Pc.tentative

/-- The live nodes: those `kmem_cache_alloc` handed out and `sn_destroy_node` has not freed. -/
def liveCount : ℕ := (List.range s.nextNode).countP fun n => (s.node n).live

/-- The live nodes whose vnode belongs to the vfs of `m`. -/
def vfsCount (m : Mount) : ℕ :=
  (List.range s.nextNode).countP fun n => (s.node n).live && (s.node n).vVfsp == m

end Cache

/-- A node as `sn_addhash_locked` links it into the index of `m`: live, `RHASHED`, of mount
`m` and of the vfs of `m`, with a path whose length is `n_rplen`. -/
def Linked (s : Cache) (m : Mount) (n : Node) : Prop :=
  (s.node n).live ∧ (s.node n).rHashed ∧ (s.node n).nMount = m ∧ (s.node n).vVfsp = m ∧
    ∃ p, (s.node n).nRpath = some p ∧ (s.node n).nRplen = p.length

/-- A shell `make_fusenode` built for mount `mi` and has not linked. -/
def Shell (s : Cache) (mi : Mount) (n : Node) : Prop :=
  (s.node n).live ∧ (s.node n).rHashed = false ∧ (s.node n).nMount = mi ∧ (s.node n).vVfsp = mi

/-- What a thread at `pc` knows of the shared state: the nodes it unlinked stay unlinked, its
shell is a shell, the node `sn_hashfind` found is in the index whose lock the thread holds
(and off the freelist once the thread has seen it so), and the nodes the drain has still to
visit are in the index it drains. -/
def PcOk (s : Cache) (pc : Pc) : Prop :=
  (∀ n ∈ pc.unhashed, (s.node n).rHashed = false) ∧
  (∀ mi n, pc.shell = some (mi, n) → Shell s mi n) ∧
  (∀ mi n, pc.found = some (mi, n) → n ∈ (s.mount mi).fmiHashAvl) ∧
  (∀ mi n k, pc = .hfHold mi n k → n ∉ s.fusefreelist) ∧
  (∀ mi rest rlist, pc = .dtDrain mi rest rlist → rest.Sublist (s.mount mi).fmiHashAvl)

/-- The index locks are reader/writer locks: two threads hold one lock only as readers. -/
def LocksOk (s : Cache) : Prop :=
  ∀ (u v : Tid) (pu pv : Pc) (m : Mount) (wu wv : Bool), u ≠ v → s.threads[u]? = some pu → s.threads[v]? = some pv →
    pu.lock = some (m, wu) → pv.lock = some (m, wv) → wu = false ∧ wv = false

/-- The invariant of every reachable state. -/
structure Inv (s : Cache) : Prop where
  /-- Nodes not yet handed out are not live. -/
  fresh : ∀ n, s.nextNode ≤ n → (s.node n).live = false
  /-- Every owner owns a live node. -/
  refsLive : ∀ n ∈ s.refs, (s.node n).live
  /-- `v_count` counts the owners. -/
  count : ∀ n, (s.node n).live → (s.node n).vCount = s.refs.count n
  /-- A node on the freelist or held tentatively has no other such owner. -/
  owned : (s.fusefreelist ++ s.threads.flatMap Pc.tentative).Nodup
  /-- A node a caller holds is not on the freelist. -/
  heldFree : ∀ n ∈ s.held, n ∉ s.fusefreelist
  /-- Indexed nodes are linked as `sn_addhash_locked` links them. -/
  linked : ∀ m, ∀ n ∈ (s.mount m).fmiHashAvl, Linked s m n
  /-- `RHASHED` nodes are in the index of their mount. -/
  hashed : ∀ n, (s.node n).rHashed → n ∈ (s.mount (s.node n).nMount).fmiHashAvl
  /-- Indexed nodes keep a vnode count. -/
  pos : ∀ m, ∀ n ∈ (s.mount m).fmiHashAvl, 1 ≤ (s.node n).vCount
  ordered : ∀ m, Ordered s.hdr (s.mount m).fmiHashAvl
  allocated : s.fusenodenew = s.liveCount
  vfsHeld : ∀ m, (s.mount m).vfsHolds = s.vfsCount m
  locks : LocksOk s
  pcs : ∀ (u : Tid) (pc : Pc), s.threads[u]? = some pc → PcOk s pc

/-- `fusefs_subrinit` leaves a state with no node, in which every thread is idle. -/
theorem inv_init (nfusenode : ℕ) (checkTableDebug : Bool) (n : ℕ) :
    Inv (Cache.init nfusenode checkTableDebug n) := by
  have hidle : ∀ (u : Tid) (pc : Pc), (Cache.init nfusenode checkTableDebug n).threads[u]? = some pc →
      pc = .idle := by
    intro u pc h
    simp only [Cache.init, List.getElem?_replicate] at h
    split_ifs at h; cases h; rfl
  have hflat : (List.replicate n Pc.idle).flatMap Pc.tentative = [] := by
    simp [List.flatMap_replicate, Pc.tentative]
  have hrefs : (Cache.init nfusenode checkTableDebug n).refs = [] := by
    simp [Cache.refs, Cache.init, hflat]
  refine ⟨fun _ _ => rfl, by simp [hrefs], by simp [hrefs, Cache.init], by simp [Cache.init, hflat],
    by simp [Cache.init], by simp [Cache.init], by simp [Cache.init], by simp [Cache.init],
    fun _ => List.Pairwise.nil, rfl, fun _ => rfl, ?_, ?_⟩
  · intro u v pu pv m wu wv _ hu _ hl _
    simp [hidle u pu hu, Pc.lock] at hl
  · intro u pu hu
    obtain rfl := hidle u pu hu
    simp [PcOk, Pc.unhashed, Pc.shell, Pc.found]

/-! ## Threads -/

section Threads

variable {s : Cache} {t : Tid} {pc pc' : Pc}

theorem getElem?_setPc {u : Tid} (ht : s.threads[t]? = some pc) :
    (s.threads.set t pc')[u]? = if u = t then some pc' else s.threads[u]? := by
  have hlt : t < s.threads.length := by
    by_contra h; simp [List.getElem?_eq_none (Nat.le_of_not_lt h)] at ht
  rw [List.getElem?_set]
  by_cases h : u = t
  · subst h; simp [hlt]
  · simp [h, Ne.symm h]

/-- What holds of every thread holds after thread `t` moves, if it holds of its new pc. -/
theorem forall_setPc {P : Tid → Pc → Prop} (ht : s.threads[t]? = some pc)
    (hother : ∀ u pu, u ≠ t → s.threads[u]? = some pu → P u pu) (hself : P t pc') :
    ∀ u pu, (s.threads.set t pc')[u]? = some pu → P u pu := by
  intro u pu hu
  rw [getElem?_setPc ht] at hu
  split_ifs at hu with h
  · cases hu; subst h; exact hself
  · exact hother u pu h hu

theorem flatMap_set_perm (f : Pc → List Node) {q : Pc} :
    ∀ {l : List Pc} {t : ℕ}, l[t]? = some pc →
      ((l.set t q).flatMap f ++ f pc).Perm (l.flatMap f ++ f q)
  | [], _, h => by cases h
  | a :: l, 0, h => by
    obtain rfl : a = pc := by simpa using h
    rw [List.perm_iff_count]; intro b
    simp only [List.set_cons_zero, List.flatMap_cons, List.count_append]; omega
  | a :: l, t + 1, h => by
    simpa using (flatMap_set_perm f (l := l) (by simpa using h)).append_left (f a)

theorem lockFree_iff {m : Mount} :
    s.lockFree m ↔ ∀ (u : Tid) (pu : Pc), s.threads[u]? = some pu →
      pu.lock.map Prod.fst ≠ some m := by
  simp only [Cache.lockFree, List.all_eq_true, List.mem_iff_getElem?, decide_eq_true_eq]
  exact ⟨fun h u pu hu => h pu ⟨u, hu⟩, fun h pu ⟨u, hu⟩ => h u pu hu⟩

theorem writerFree_iff {m : Mount} :
    s.writerFree m ↔ ∀ (u : Tid) (pu : Pc), s.threads[u]? = some pu →
      pu.lock ≠ some (m, true) := by
  simp only [Cache.writerFree, List.all_eq_true, List.mem_iff_getElem?, decide_eq_true_eq]
  exact ⟨fun h u pu hu => h pu ⟨u, hu⟩, fun h pu ⟨u, hu⟩ => h u pu hu⟩

/-- A thread whose lock is free of other holders can not meet another thread's lock. -/
theorem lock_ne_of_lockFree {m : Mount} (hf : s.lockFree m) {u : Tid} {pu : Pc} {w : Bool}
    (hu : s.threads[u]? = some pu) (hl : pu.lock = some (m, w)) : False := by
  have := lockFree_iff.mp hf u pu hu
  simp [hl] at this

/-- How a step may change a thread's lock: keep it, drop it, or take one that is free. -/
def LockStep (s : Cache) (pc pc' : Pc) : Prop :=
  pc'.lock = none ∨ pc'.lock = pc.lock ∨
    (∃ m, pc'.lock = some (m, true) ∧ s.lockFree m) ∨
    (∃ m, pc'.lock = some (m, false) ∧ s.writerFree m)

theorem locksOk_setPc (hl : LocksOk s) (ht : s.threads[t]? = some pc) (hstep : LockStep s pc pc') :
    LocksOk (s.setPc t pc') := by
  have key : ∀ v pv m w w', v ≠ t → s.threads[v]? = some pv → pc'.lock = some (m, w) →
      pv.lock = some (m, w') → w = false ∧ w' = false := by
    intro v pv m w w' hv hvt hl' hlv
    rcases hstep with h | h | ⟨m', h, hf⟩ | ⟨m', h, hf⟩
    · simp [h] at hl'
    · exact hl t v pc pv m w w' (Ne.symm hv) ht hvt (h ▸ hl') hlv
    · rw [h] at hl'; cases hl'; exact (lock_ne_of_lockFree hf hvt hlv).elim
    · rw [h] at hl'; cases hl'
      refine ⟨rfl, ?_⟩
      cases w'
      · rfl
      · exact (writerFree_iff.mp hf v pv hvt hlv).elim
  intro u v pu pv m wu wv huv hu hv hlu hlv
  simp only [Cache.setPc] at hu hv
  rw [getElem?_setPc ht] at hu hv
  split_ifs at hu hv with h₁ h₂ h₂
  · exact absurd (h₁.trans h₂.symm) huv
  · cases hu; exact key v pv m wu wv h₂ hv hlu hlv
  · cases hv; exact (key u pu m wv wu h₁ hu hlv hlu).symm
  · exact hl u v pu pv m wu wv huv hu hv hlu hlv

end Threads

end FusefsNode
