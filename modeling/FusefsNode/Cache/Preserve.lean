import FusefsNode.Cache.Invariant
import Mathlib.Data.List.Nodup

/-!
# The transitions keep the invariant

Every step of `Cache.runPc` and `Cache.step` is one of a few kinds of transition, and each
kind has one lemma here saying that it keeps `Inv`:

* `inv_setPc`: only the thread's program counter changes (the unlocked reads, lock
  acquisitions and releases, calls into the file);
* `inv_drop`: a thread gives up a tentative count with `v_count > 1`, the
  "decrement and start over" of `make_fusenode`, `fusefs_addfree` and
  `fusefs_node_reclaim`; `inv_releaseDrop` and `inv_pagerDrop` are the same for a caller's
  and the pager's reference;
* `inv_hold`, `inv_pagerHold`: `VN_HOLD` for a caller or the pager;
* `inv_releaseLast`, `inv_pagerLast`: the last reference goes and the thread enters
  `fusefs_addfree`;
* `inv_take`: a count moves from the freelist to a caller (`sn_hashfind`) or to the thread
  (`make_fusenode` and `fusefs_node_reclaim` pop the head);
* `inv_pool`: a count moves from the thread to the freelist (`fusefs_addfree`);
* `inv_unhash`, `inv_drain`: `sn_rmhash_locked`, and the drain of `fusefs_destroy_table`;
* `inv_inactive`, `inv_destroy`: `sn_inactive` and `sn_destroy_node`;
* `inv_recycle`, `inv_alloc`, `inv_insert`: the shell `make_fusenode` builds, and its
  insertion.

## Strategy

The counts: each lemma first relates the owners after the step to those before
(`flatMap_set_perm_append`), and `v_count` moves by the same amount.  Where the count of a
node may drop to its last owner (pooling, destroying, recycling), `Inv.count_tentative`
says that the thread is that owner.

The other threads: a step changes the fields `PcOk` reads only of the thread's own
tentative nodes, which no other thread has (`Inv.tentative_disjoint`), or of an index whose
lock the thread takes, which no other thread holds (`lock_ne_of_lockFree`).
-/

namespace FusefsNode

section Helpers

variable {s : Cache} {t : Tid} {pc pc' : Pc}

theorem flatMap_set_perm_append (ht : s.threads[t]? = some pc) {A B : List Node} {q : Pc}
    (h : (pc.tentative ++ B).Perm (q.tentative ++ A)) :
    ((s.threads.set t q).flatMap Pc.tentative ++ A).Perm
      (s.threads.flatMap Pc.tentative ++ B) := by
  have h₁ := flatMap_set_perm Pc.tentative (q := q) ht
  rw [List.perm_iff_count] at h h₁ ⊢
  intro b; have := h b; have := h₁ b; simp only [List.count_append] at *; omega

theorem mem_flatMap_of_thread (ht : s.threads[t]? = some pc) {n : Node}
    (hn : n ∈ pc.tentative) : n ∈ s.threads.flatMap Pc.tentative := by
  obtain ⟨h, rfl⟩ := List.getElem?_eq_some_iff.mp ht
  exact List.mem_flatMap.mpr ⟨_, List.getElem_mem h, hn⟩

/-- Two threads never hold one node tentatively. -/
theorem Inv.tentative_disjoint (hs : Inv s) {u : Tid} {pu : Pc} (hu : s.threads[u]? = some pu)
    (ht : s.threads[t]? = some pc) (hne : u ≠ t) {n : Node} (h₁ : n ∈ pu.tentative)
    (h₂ : n ∈ pc.tentative) : False := by
  have hp := (List.nodup_flatMap.mp (List.Nodup.of_append_right hs.owned)).2
  rw [List.pairwise_iff_getElem] at hp
  obtain ⟨hu', rfl⟩ := List.getElem?_eq_some_iff.mp hu
  obtain ⟨ht', rfl⟩ := List.getElem?_eq_some_iff.mp ht
  rcases Nat.lt_or_gt_of_ne hne with h | h
  · exact hp u t hu' ht' h h₁ h₂
  · exact hp t u ht' hu' h h₂ h₁

/-- A node a thread holds tentatively is not on the freelist. -/
theorem Inv.tentative_not_free (hs : Inv s) (ht : s.threads[t]? = some pc) {n : Node}
    (hn : n ∈ pc.tentative) : n ∉ s.fusefreelist := fun hf =>
  List.disjoint_of_nodup_append hs.owned hf (mem_flatMap_of_thread ht hn)

/-- The thread's tentative count is one of the counts of its node. -/
theorem Inv.count_tentative (hs : Inv s) (ht : s.threads[t]? = some pc) {n : Node}
    (hn : n ∈ pc.tentative) :
    s.held.count n + s.paged.count n + 1 ≤ (s.node n).vCount := by
  have hmem := mem_flatMap_of_thread ht hn
  have hlive := hs.refsLive n (by simp [Cache.refs, hmem])
  have hpos := List.count_pos_iff.mpr hmem
  rw [hs.count n hlive]
  simp only [Cache.refs, List.count_append]
  omega

theorem Inv.not_indexed (hs : Inv s) {n : Node} (h : (s.node n).rHashed = false) (m : Mount) :
    n ∉ (s.mount m).fmiHashAvl := fun hn => by
  have := (hs.linked m n hn).2.1
  simp [h] at this

theorem Inv.hdrsWellFormed (hs : Inv s) (m : Mount) :
    HdrsWellFormed s.hdr (s.mount m).fmiHashAvl := by
  intro n hn
  obtain ⟨-, -, -, -, p, hp, hl⟩ := hs.linked m n hn
  simp [FusefsNodeHdr.WellFormed, hp, hl]

theorem Inv.index_nodup (hs : Inv s) (m : Mount) : (s.mount m).fmiHashAvl.Nodup :=
  ordered_nodup (hs.ordered m) (hs.hdrsWellFormed m)

theorem AddfreeCont.ret_unhashed (k : AddfreeCont) : ∀ n ∈ k.ret.unhashed, n ∈ k.tentative := by
  cases k with
  | destroyTable rlist =>
    cases rlist with
    | nil => simp [AddfreeCont.ret, dtNext, Pc.unhashed]
    | cons x rlist =>
      simp only [AddfreeCont.ret, dtNext, Pc.unhashed, AddfreeCont.tentative]
      exact fun n hn => List.mem_cons_of_mem x hn
  | _ => simp [AddfreeCont.ret, Pc.unhashed]

theorem Pc.shell_tentative {pc : Pc} {mi : Mount} {n : Node} (h : pc.shell = some (mi, n)) :
    n ∈ pc.tentative := by
  unfold Pc.shell at h
  split at h <;> cases h <;> exact List.mem_singleton_self _

end Helpers

section Transitions

variable {s s' : Cache} {t : Tid} {pc pc' : Pc}

/-- The fields of a node that the population counters and the threads' knowledge read. -/
def Fusenode.frame (x : Fusenode) : Bool × Bool × Mount × Mount :=
  (x.live, x.rHashed, x.nMount, x.vVfsp)

/-- A step that changes no node's frame, no index, the path of no indexed node and no
population counter, and puts on the freelist no node a thread found at `hfHold`, keeps all of
`Inv` but the counts and the threads, which it proves. -/
theorem Inv.of_frame (hs : Inv s) (hframe : ∀ n, (s'.node n).frame = (s.node n).frame)
    (hmount : ∀ m, (s'.mount m).fmiHashAvl = (s.mount m).fmiHashAvl ∧
      (s'.mount m).vfsHolds = (s.mount m).vfsHolds)
    (hpath : ∀ m, ∀ n ∈ (s.mount m).fmiHashAvl,
      (s'.node n).nRpath = (s.node n).nRpath ∧ (s'.node n).nRplen = (s.node n).nRplen)
    (hnext : s'.nextNode = s.nextNode) (hnew : s'.fusenodenew = s.fusenodenew)
    (hfree : ∀ (u : Tid) (mi n : Node) (k : HashfindCont), s'.threads[u]? = some (.hfHold mi n k) →
      n ∈ s'.fusefreelist → n ∈ s.fusefreelist)
    (hrefsLive : ∀ n ∈ s'.refs, (s.node n).live)
    (hcount : ∀ n, (s.node n).live → (s'.node n).vCount = s'.refs.count n)
    (howned : (s'.fusefreelist ++ s'.threads.flatMap Pc.tentative).Nodup)
    (hheld : ∀ n ∈ s'.held, n ∉ s'.fusefreelist)
    (hpos : ∀ m, ∀ n ∈ (s.mount m).fmiHashAvl, 1 ≤ (s'.node n).vCount)
    (hlocks : LocksOk s') (hpcs : ∀ (u : Tid) (pc : Pc), s'.threads[u]? = some pc → PcOk s pc) :
    Inv s' := by
  have hf : ∀ n, (s'.node n).live = (s.node n).live ∧ (s'.node n).rHashed = (s.node n).rHashed ∧
      (s'.node n).nMount = (s.node n).nMount ∧ (s'.node n).vVfsp = (s.node n).vVfsp := by
    intro n; simpa [Fusenode.frame] using hframe n
  have hlive : (fun n => (s'.node n).live) = fun n => (s.node n).live := funext fun n => (hf n).1
  refine ⟨fun n hn => (hf n).1.trans (hs.fresh n (hnext ▸ hn)), fun n hn => (hf n).1 ▸ hrefsLive n hn,
    fun n hn => hcount n ((hf n).1 ▸ hn), howned, hheld, ?_, ?_, ?_, ?_, ?_, ?_, hlocks, ?_⟩
  · intro m n hn
    rw [(hmount m).1] at hn
    simpa [Linked, hf n, hpath m n hn] using hs.linked m n hn
  · intro n h
    rw [(hf n).2.1] at h
    simpa [(hmount _).1, (hf n).2.2.1] using hs.hashed n h
  · intro m n hn; exact hpos m n ((hmount m).1 ▸ hn)
  · intro m
    rw [(hmount m).1]
    exact ordered_congr (fun n hn => by simp [hpath m n hn]) (hs.ordered m)
  · rw [hnew, hs.allocated, Cache.liveCount, Cache.liveCount, hnext, hlive]
  · intro m
    rw [(hmount m).2, hs.vfsHeld m, Cache.vfsCount, Cache.vfsCount, hnext]
    exact List.countP_congr fun n _ => by simp [(hf n).1, (hf n).2.2.2]
  · intro u pu hu
    obtain ⟨h₁, h₂, h₃, h₄, h₅⟩ := hpcs u pu hu
    refine ⟨fun n hn => (hf n).2.1.trans (h₁ n hn), fun mi n hsh => ?_,
      fun mi n hfd => (hmount mi).1 ▸ h₃ mi n hfd,
      fun mi n k hpu hn => h₄ mi n k hpu (hfree u mi n k (hpu ▸ hu) hn),
      fun mi rest rlist hpu => (hmount mi).1 ▸ h₅ mi rest rlist hpu⟩
    simpa [Shell, hf n] using h₂ mi n hsh

theorem nodup_of_perm_append {l l' A fl : List Node} (h : (l' ++ A).Perm l)
    (hn : (fl ++ l).Nodup) : (fl ++ l').Nodup := by
  have := (h.append_left fl).nodup_iff.mpr hn
  rw [← List.append_assoc] at this
  exact this.of_append_left

/-- The counts stay right when the owners and `v_count` change alike: `A` are the owners
that go, `B` those that come. -/
theorem Inv.count_of_perm (hs : Inv s) {A B : List Node} (hperm : (s'.refs ++ A).Perm (s.refs ++ B))
    (hv : ∀ n, (s.node n).live → (s'.node n).vCount + A.count n = (s.node n).vCount + B.count n) :
    ∀ n, (s.node n).live → (s'.node n).vCount = s'.refs.count n := by
  intro n hn
  have h₁ := hperm.count_eq n
  have h₂ := hv n hn
  rw [List.count_append, List.count_append, ← hs.count n hn] at h₁
  omega

theorem vnRele_vCount {np : Node} (hgt : 1 ≤ (s.node np).vCount) (n : Node) :
    ((s.vnRele np).node n).vCount + [np].count n = (s.node n).vCount + ([] : List Node).count n := by
  by_cases h : n = np
  · subst h; simp; omega
  · simp [h, Ne.symm h]

theorem vnRele_pos {np n : Node} (hgt : 1 < (s.node np).vCount) (hn : 1 ≤ (s.node n).vCount) :
    1 ≤ ((s.vnRele np).node n).vCount := by
  by_cases h : n = np
  · subst h; simp; omega
  · simpa [h] using hn

theorem vnHold_vCount (np n : Node) :
    ((s.vnHold np).node n).vCount + ([] : List Node).count n = (s.node n).vCount + [np].count n := by
  by_cases h : n = np
  · subst h; simp
  · simp [h, Ne.symm h]

theorem inv_setPc (hs : Inv s) (ht : s.threads[t]? = some pc)
    (htent : pc'.tentative = pc.tentative) (hlock : LockStep s pc pc') (hok : PcOk s pc') :
    Inv (s.setPc t pc') := by
  have hflat : ((s.threads.set t pc').flatMap Pc.tentative).Perm
      (s.threads.flatMap Pc.tentative) := by
    simpa using flatMap_set_perm_append (A := []) (B := []) ht (by rw [htent])
  have hrefs : (s.setPc t pc').refs.Perm s.refs := hflat.append_left _
  exact ⟨hs.fresh, fun n hn => hs.refsLive n (hrefs.subset hn),
    fun n hn => (hs.count n hn).trans (hrefs.count_eq n).symm,
    (hflat.append_left s.fusefreelist).nodup_iff.mpr hs.owned, hs.heldFree, hs.linked,
    hs.hashed, hs.pos, hs.ordered, hs.allocated, hs.vfsHeld, locksOk_setPc hs.locks ht hlock,
    forall_setPc ht (fun u pu _ hu => hs.pcs u pu hu) hok⟩

theorem inv_drop (hs : Inv s) (ht : s.threads[t]? = some pc) {np : Node}
    (htent : pc.tentative = np :: pc'.tentative) (hgt : 1 < (s.node np).vCount)
    (hlock : LockStep s pc pc') (hok : PcOk s pc') :
    Inv ((s.vnRele np).setPc t pc') := by
  have hflat : ((s.threads.set t pc').flatMap Pc.tentative ++ [np]).Perm
      (s.threads.flatMap Pc.tentative) := by
    simpa using flatMap_set_perm_append (A := [np]) (B := []) ht
      (by rw [htent, List.append_nil]; exact (List.perm_append_singleton _ _).symm)
  have hrefs : (((s.vnRele np).setPc t pc').refs ++ [np]).Perm s.refs := by
    simpa [Cache.refs] using hflat.append_left (s.held ++ s.paged ++ s.fusefreelist)
  exact hs.of_frame (fun n => by simp [Fusenode.frame]) (fun m => ⟨rfl, rfl⟩) (fun m n _ => by simp) rfl rfl
    (fun _ _ _ _ _ h => h) (fun n hn => hs.refsLive n (hrefs.subset (List.mem_append_left _ hn)))
    (hs.count_of_perm (B := []) (by simpa using hrefs) fun n _ => vnRele_vCount hgt.le n)
    (nodup_of_perm_append hflat hs.owned) hs.heldFree
    (fun m n hn => vnRele_pos hgt (hs.pos m n hn)) (locksOk_setPc hs.locks ht hlock)
    (forall_setPc ht (fun u pu _ hu => hs.pcs u pu hu) hok)

theorem Pc.isIdle_tentative {pc : Pc} (h : pc.isIdle) : pc.tentative = [] ∧ pc.lock = none := by
  cases pc <;> simp_all [Pc.isIdle, Pc.tentative, Pc.lock]

theorem idle_iff {t : Tid} : s.idle t ↔ ∃ pc, s.threads[t]? = some pc ∧ pc.isIdle := by
  unfold Cache.idle
  cases s.threads[t]? <;> simp

/-- `VN_RELE` of a reference of a caller or of the pager, which `held` and `paged` no longer
list: a decrement, or the call of `fusefs_addfree` for the last count. -/
theorem inv_vnReleInactive (hs : Inv s) {held paged : List Node} {np : Node}
    (hrefs : (held ++ paged ++ [np]).Perm (s.held ++ s.paged)) (hheld : ∀ n ∈ held, n ∈ s.held)
    (hidle : s.idle t) : Inv ({ s with held, paged }.vnReleInactive t np) := by
  have hperm : ({ s with held, paged }.refs ++ [np]).Perm s.refs := by
    rw [List.perm_iff_count] at hrefs ⊢
    intro a; have := hrefs a; simp only [Cache.refs, List.count_append] at *; omega
  have hlive : (s.node np).live := hs.refsLive np (hperm.subset (by simp))
  have hc := hperm.count_eq np
  rw [List.count_append, ← hs.count np hlive, List.count_singleton_self] at hc
  unfold Cache.vnReleInactive
  split_ifs with hgt
  · refine hs.of_frame (fun n => by simp [Fusenode.frame]) (fun m => ⟨rfl, rfl⟩) (fun m n _ => by simp) rfl rfl
      (fun _ _ _ _ _ h => h) (fun n hn => hs.refsLive n (hperm.subset (List.mem_append_left _ hn)))
      (hs.count_of_perm (B := []) (by simpa using hperm) fun n _ => vnRele_vCount (s := s) hgt.le n)
      hs.owned (fun n hn => hs.heldFree n (hheld n hn))
      (fun m n hn => vnRele_pos (s := s) hgt (hs.pos m n hn)) hs.locks
      (fun u pu hu => hs.pcs u pu hu)
  · obtain ⟨pc, ht, hpc⟩ := idle_iff.mp hidle
    obtain ⟨htent, hlock⟩ := Pc.isIdle_tentative hpc
    have hle : (s.node np).vCount ≤ 1 := Nat.le_of_not_lt hgt
    have hflat : ((s.threads.set t (.afCount np .inactive)).flatMap Pc.tentative ++ []).Perm
        (s.threads.flatMap Pc.tentative ++ [np]) :=
      flatMap_set_perm_append ht (by rw [htent]; simp [Pc.tentative, AddfreeCont.tentative])
    rw [List.append_nil, List.perm_iff_count] at hflat
    have hrefs' : ({ s with held, paged }.setPc t (.afCount np .inactive)).refs.Perm s.refs := by
      rw [List.perm_iff_count] at hperm ⊢
      intro a; have h₁ := hflat a; have h₂ := hperm a
      simp only [Cache.refs, Cache.setPc, List.count_append] at h₁ h₂ ⊢; omega
    have hlast : np ∉ s.fusefreelist ++ s.threads.flatMap Pc.tentative := by
      rw [← List.count_eq_zero]
      simp only [Cache.refs, List.count_append] at hc ⊢
      omega
    refine hs.of_frame (fun n => by simp [Fusenode.frame]) (fun m => ⟨rfl, rfl⟩) (fun m n _ => by simp) rfl rfl
      (fun _ _ _ _ _ h => h) (fun n hn => hs.refsLive n (hrefs'.subset hn))
      (hs.count_of_perm (A := []) (B := []) (by simpa using hrefs') fun n _ => rfl) ?_
      (fun n hn => hs.heldFree n (hheld n hn)) hs.pos
      (locksOk_setPc hs.locks ht (.inl rfl))
      (forall_setPc ht (fun u pu _ hu => hs.pcs u pu hu)
        (by simp [PcOk, Pc.unhashed, Pc.shell, Pc.found, AddfreeCont.tentative]))
    refine (List.Perm.nodup_iff ?_).mpr (List.nodup_cons.mpr ⟨hlast, hs.owned⟩)
    rw [List.perm_iff_count]
    intro a; have := hflat a
    simp only [Cache.setPc, List.count_append, List.count_cons, List.count_nil] at this ⊢
    omega

/-- `VN_HOLD` for a caller of `sn_hashfind`, on the node it found in the index. -/
theorem inv_hold (hs : Inv s) (ht : s.threads[t]? = some pc) {mi np : Node}
    (hidx : np ∈ (s.mount mi).fmiHashAvl) (hfree : np ∉ s.fusefreelist)
    (htent : pc'.tentative = pc.tentative) (hlock : LockStep s pc pc') (hok : PcOk s pc') :
    Inv (((s.vnHold np).addHeld np).setPc t pc') := by
  have hflat : ((s.threads.set t pc').flatMap Pc.tentative).Perm
      (s.threads.flatMap Pc.tentative) := by
    simpa using flatMap_set_perm_append (A := []) (B := []) ht (by rw [htent])
  have hrefs : ((((s.vnHold np).addHeld np).setPc t pc').refs ++ []).Perm (s.refs ++ [np]) := by
    rw [List.perm_iff_count] at hflat ⊢; intro a; have := hflat a
    simp only [Cache.refs, Cache.setPc, Cache.addHeld, Cache.vnHold_eq, List.count_append,
      List.count_cons, List.count_nil] at this ⊢
    omega
  have hlive := (hs.linked mi np hidx).1
  refine hs.of_frame (fun n => by simp [Fusenode.frame]) (fun m => ⟨rfl, rfl⟩) (fun m n _ => by simp) rfl rfl
    (fun _ _ _ _ _ h => h) (fun n hn => ?_) (hs.count_of_perm hrefs fun n _ => vnHold_vCount np n)
    ((hflat.append_left _).nodup_iff.mpr hs.owned) ?_ (fun m n hn => ?_)
    (locksOk_setPc hs.locks ht hlock) (forall_setPc ht (fun u pu _ hu => hs.pcs u pu hu) hok)
  · rcases List.mem_append.mp (hrefs.subset (List.mem_append_left _ hn)) with h | h
    · exact hs.refsLive n h
    · simp at h; subst h; exact hlive
  · intro n hn
    simp only [Cache.setPc, Cache.addHeld, Cache.vnHold_eq, List.mem_cons] at hn ⊢
    rcases hn with rfl | hn
    · exact hfree
    · exact hs.heldFree n hn
  · have := hs.pos m n hn
    by_cases h : n = np
    · subst h; simp
    · simpa [h] using this

/-- The pager's `VN_HOLD` on a live node. -/
theorem inv_pagerHold (hs : Inv s) {np : Node} (hlive : (s.node np).live) :
    Inv ({ s with paged := np :: s.paged }.vnHold np) := by
  have hrefs : ({ s with paged := np :: s.paged }.vnHold np).refs ++ [] |>.Perm (s.refs ++ [np]) := by
    rw [List.perm_iff_count]; intro a
    simp only [Cache.refs, Cache.vnHold_eq, List.count_append, List.count_cons, List.count_nil]
    omega
  refine hs.of_frame (fun n => by simp [Fusenode.frame]) (fun m => ⟨rfl, rfl⟩) (fun m n _ => by simp) rfl rfl
    (fun _ _ _ _ _ h => h) (fun n hn => ?_) (hs.count_of_perm hrefs fun n _ => vnHold_vCount np n)
    hs.owned hs.heldFree (fun m n hn => ?_) hs.locks hs.pcs
  · rcases List.mem_append.mp (hrefs.subset (List.mem_append_left _ hn)) with h | h
    · exact hs.refsLive n h
    · simp at h; subst h; exact hlive
  · have := hs.pos m n hn
    by_cases h : n = np
    · subst h; simp
    · simpa [h] using this

/-- `sn_hashfind` takes a node off the freelist: the freelist's count becomes the caller's. -/
theorem inv_takeHeld (hs : Inv s) (ht : s.threads[t]? = some pc) {np : Node}
    (hnp : np ∈ s.fusefreelist) (htent : pc'.tentative = pc.tentative)
    (hlock : LockStep s pc pc') (hok : PcOk s pc') :
    Inv (((s.snRmfree np).addHeld np).setPc t pc') := by
  have hflat := flatMap_set_perm_append (A := []) (B := []) (q := pc') ht (by rw [htent])
  rw [List.perm_iff_count] at hflat
  have herase := (List.perm_cons_erase hnp).count_eq
  have hrefs : (((s.snRmfree np).addHeld np).setPc t pc').refs.Perm s.refs := by
    rw [List.perm_iff_count]; intro a; have := hflat a; have := herase a
    simp only [Cache.refs, Cache.setPc, Cache.addHeld, Cache.snRmfree, List.count_append,
      List.count_cons, List.count_nil] at *
    omega
  have hnodup := List.Nodup.of_append_left hs.owned
  refine hs.of_frame (fun n => by simp [Fusenode.frame]) (fun m => ⟨rfl, rfl⟩) (fun m n _ => by simp) rfl rfl
    (fun _ _ _ _ _ h => List.mem_of_mem_erase h) (fun n hn => hs.refsLive n (hrefs.subset hn))
    (hs.count_of_perm (A := []) (B := []) (by simpa using hrefs) fun n _ => rfl) ?_ ?_ hs.pos
    (locksOk_setPc hs.locks ht hlock) (forall_setPc ht (fun u pu _ hu => hs.pcs u pu hu) hok)
  · rw [List.nodup_iff_count_le_one]; intro a
    have h₁ := hflat a; have h₂ := herase a
    have h₃ := List.nodup_iff_count_le_one.mp hs.owned a
    simp only [Cache.setPc, Cache.addHeld, Cache.snRmfree, List.count_append, List.count_cons,
      List.count_nil] at *
    omega
  · intro n hn
    simp only [Cache.setPc, Cache.addHeld, Cache.snRmfree, List.mem_cons] at hn ⊢
    rcases hn with rfl | hn
    · exact hnodup.not_mem_erase
    · exact fun h => hs.heldFree n hn (List.mem_of_mem_erase h)

/-- `make_fusenode` or `fusefs_node_reclaim` pops a node off the freelist: the freelist's count
becomes the thread's. -/
theorem inv_pop (hs : Inv s) (ht : s.threads[t]? = some pc) {np : Node}
    (hnp : np ∈ s.fusefreelist) (htent : pc'.tentative = np :: pc.tentative)
    (hlock : LockStep s pc pc') (hok : PcOk s pc') :
    Inv ((s.snRmfree np).setPc t pc') := by
  have hflat := flatMap_set_perm_append (A := []) (B := [np]) (q := pc') ht
    (by rw [htent, List.append_nil]; exact List.perm_append_singleton _ _)
  rw [List.perm_iff_count] at hflat
  have herase := (List.perm_cons_erase hnp).count_eq
  have hrefs : ((s.snRmfree np).setPc t pc').refs.Perm s.refs := by
    rw [List.perm_iff_count]; intro a; have := hflat a; have := herase a
    simp only [Cache.refs, Cache.setPc, Cache.snRmfree, List.count_append, List.count_cons,
      List.count_nil] at *
    omega
  refine hs.of_frame (fun n => by simp [Fusenode.frame]) (fun m => ⟨rfl, rfl⟩) (fun m n _ => by simp) rfl rfl
    (fun _ _ _ _ _ h => List.mem_of_mem_erase h) (fun n hn => hs.refsLive n (hrefs.subset hn))
    (hs.count_of_perm (A := []) (B := []) (by simpa using hrefs) fun n _ => rfl) ?_
    (fun n hn h => hs.heldFree n hn (List.mem_of_mem_erase h)) hs.pos
    (locksOk_setPc hs.locks ht hlock) (forall_setPc ht (fun u pu _ hu => hs.pcs u pu hu) hok)
  rw [List.nodup_iff_count_le_one]; intro a
  have h₁ := hflat a; have h₂ := herase a
  have h₃ := List.nodup_iff_count_le_one.mp hs.owned a
  simp only [Cache.setPc, Cache.snRmfree, List.count_append, List.count_cons, List.count_nil] at *
  omega

/-- Code outside the file changes the fields it owns. -/
theorem inv_outside (hs : Inv s) (np : Node) (rCount : ℕ) (rError : ℤ) (rCred rDirty vPages : Bool) :
    Inv (s.setNode np { s.node np with rCount, rError, rCred, rDirty, vPages }) := by
  have key : ∀ n, let x := (s.setNode np { s.node np with rCount, rError, rCred, rDirty, vPages }).node n
      x.frame = (s.node n).frame ∧ x.nRpath = (s.node n).nRpath ∧ x.nRplen = (s.node n).nRplen ∧
        x.vCount = (s.node n).vCount := by
    intro n; by_cases h : n = np
    · subst h; simp [Cache.setNode, Fusenode.frame]
    · simp [Cache.setNode, h]
  exact hs.of_frame (fun n => (key n).1) (fun m => ⟨rfl, rfl⟩) (fun m n _ => ⟨(key n).2.1, (key n).2.2.1⟩)
    rfl rfl (fun _ _ _ _ _ h => h) hs.refsLive (fun n hn => (key n).2.2.2.trans (hs.count n hn))
    hs.owned hs.heldFree (fun m n hn => (key n).2.2.2.symm ▸ hs.pos m n hn) hs.locks hs.pcs

/-- An unmount sets `VFS_UNMOUNTED`. -/
theorem inv_unmount (hs : Inv s) (mi : Mount) :
    Inv (s.setMount mi { s.mount mi with vfsUnmounted := true }) := by
  have hm : ∀ m, ((s.setMount mi { s.mount mi with vfsUnmounted := true }).mount m).fmiHashAvl =
      (s.mount m).fmiHashAvl ∧
      ((s.setMount mi { s.mount mi with vfsUnmounted := true }).mount m).vfsHolds =
      (s.mount m).vfsHolds := by
    intro m; by_cases h : m = mi
    · subst h; simp [Cache.setMount]
    · simp [Cache.setMount, h]
  exact hs.of_frame (fun n => rfl) hm (fun _ _ _ => ⟨rfl, rfl⟩) rfl rfl (fun _ _ _ _ _ h => h)
    hs.refsLive hs.count hs.owned
    hs.heldFree hs.pos hs.locks hs.pcs

theorem AddfreeCont.ret_lock (k : AddfreeCont) : k.ret.lock = none := by
  cases k with
  | destroyTable rlist => cases rlist <;> rfl
  | _ => rfl

theorem AddfreeCont.ret_ne_hfHold (k : AddfreeCont) {mi n : Node} {k' : HashfindCont} :
    k.ret ≠ .hfHold mi n k' := by
  cases k with
  | destroyTable rlist => cases rlist <;> simp [AddfreeCont.ret, dtNext]
  | _ => simp [AddfreeCont.ret]

/-- Where `fusefs_addfree` returns to, a thread knows only that the nodes still to be
passed to it are unlinked. -/
theorem PcOk.ret {k : AddfreeCont} (h : ∀ n ∈ k.tentative, (s.node n).rHashed = false) :
    PcOk s k.ret := by
  refine ⟨fun n hn => h n (k.ret_unhashed n hn), ?_, ?_, fun _ _ _ hk => absurd hk k.ret_ne_hfHold, ?_⟩
  all_goals cases k with
    | destroyTable rlist => cases rlist <;> simp [AddfreeCont.ret, dtNext, Pc.shell, Pc.found]
    | _ => simp [AddfreeCont.ret, Pc.shell, Pc.found]

/-- The index lock of a thread that found a node. -/
theorem Pc.found_lock {pc : Pc} {mi n : Node} (h : pc.found = some (mi, n)) :
    ∃ w, pc.lock = some (mi, w) := by
  cases pc <;> simp [Pc.found] at h <;> obtain ⟨rfl, rfl⟩ := h <;> simp [Pc.lock]

/-- The tail insertion of `fusefs_addfree`: the thread's count becomes the freelist's. -/
theorem inv_pool (hs : Inv s) {np : Node} {k : AddfreeCont}
    (ht : s.threads[t]? = some (.afPool np k)) (hfree : s.lockFree (s.node np).vVfsp)
    (hle : ¬ 1 < (s.node np).vCount) : Inv ((s.addfreeInsert np).setPc t k.ret) := by
  have hok := hs.pcs t _ ht
  have hflat := flatMap_set_perm_append (A := [np]) (B := []) (q := k.ret) ht
    (by rw [AddfreeCont.ret_tentative, List.append_nil]
        exact (List.perm_append_singleton _ _).symm)
  rw [List.append_nil, List.perm_iff_count] at hflat
  have hrefs : ((s.addfreeInsert np).setPc t k.ret).refs.Perm s.refs := by
    rw [List.perm_iff_count]; intro a; have := hflat a
    simp only [Cache.refs, Cache.setPc, Cache.addfreeInsert, List.count_append] at *
    omega
  have hnotheld : np ∉ s.held := by
    have := hs.count_tentative ht (n := np) (by simp [Pc.tentative])
    rw [← List.count_eq_zero]; omega
  refine hs.of_frame (fun n => by simp [Fusenode.frame]) (fun m => ⟨rfl, rfl⟩)
    (fun m n _ => by simp) rfl rfl ?_ (fun n hn => hs.refsLive n (hrefs.subset hn))
    (hs.count_of_perm (A := []) (B := []) (by simpa using hrefs) fun n _ => rfl) ?_ ?_ hs.pos
    (locksOk_setPc hs.locks ht (.inl k.ret_lock))
    (forall_setPc ht (fun u pu _ hu => hs.pcs u pu hu) (PcOk.ret hok.1))
  · intro u mi n k' hu hn
    simp only [Cache.setPc, Cache.addfreeInsert, List.mem_append, List.mem_singleton] at hu hn
    rw [getElem?_setPc ht] at hu
    split_ifs at hu with hut
    · exact absurd (Option.some.inj hu) k.ret_ne_hfHold
    rcases hn with hn | rfl
    · exact hn
    · have hidx := (hs.pcs u _ hu).2.2.1 mi n (by simp [Pc.found])
      rw [(hs.linked mi n hidx).2.2.2.1] at hfree
      exact (lock_ne_of_lockFree hfree hu rfl).elim
  · rw [List.nodup_iff_count_le_one]; intro a
    have h₁ := hflat a
    have h₂ := List.nodup_iff_count_le_one.mp hs.owned a
    simp only [Cache.setPc, Cache.addfreeInsert, List.count_append] at *
    omega
  · intro n hn
    simp only [Cache.setPc, Cache.addfreeInsert, List.mem_append, List.mem_singleton] at hn ⊢
    rintro (h | rfl)
    · exact hs.heldFree n hn h
    · exact hnotheld hn

/-- `sn_inactive` on a node no index holds. -/
theorem inv_snInactive (hs : Inv s) {np : Node} (hun : (s.node np).rHashed = false) :
    Inv (s.snInactive np) := by
  have hne : ∀ m, ∀ n ∈ (s.mount m).fmiHashAvl, n ≠ np := fun m n hn h =>
    hs.not_indexed hun m (h ▸ hn)
  have hv : ∀ n, ((s.snInactive np).node n).vCount = (s.node n).vCount := by
    intro n; by_cases h : n = np <;> simp [h]
  refine hs.of_frame (fun n => by by_cases h : n = np <;> simp [h, Fusenode.frame])
    (fun m => ⟨rfl, rfl⟩) (fun m n hn => by simp [hne m n hn]) rfl rfl (fun _ _ _ _ _ h => h)
    hs.refsLive (fun n hn => (hv n).trans (hs.count n hn)) hs.owned hs.heldFree
    (fun m n hn => (hv n).symm ▸ hs.pos m n hn) hs.locks hs.pcs

/-- `sn_rmhash_locked`.  A thread that holds a lock on the node's mount while the node is
linked neither found the node nor has it still to drain: the caller holds the writer lock,
or the node is unlinked already and the call changes no index. -/
theorem inv_snRmhashLocked (hs : Inv s) {np : Node}
    (hlock : ∀ (u : Tid) (pu : Pc) (w : Bool), s.threads[u]? = some pu →
      pu.lock = some ((s.node np).nMount, w) → (s.node np).rHashed →
      (∀ mi n, pu.found = some (mi, n) → n ≠ np) ∧
      (∀ mi rest rlist, pu = .dtDrain mi rest rlist → np ∉ rest)) :
    Inv (s.snRmhashLocked np) := by
  have hmem : ∀ m n, n ∈ ((s.snRmhashLocked np).mount m).fmiHashAvl ↔
      n ≠ np ∧ n ∈ (s.mount m).fmiHashAvl := by
    intro m n
    simp only [Cache.snRmhashLocked_eq]
    split_ifs with hm
    · exact (hs.index_nodup m).mem_erase_iff
    · refine ⟨fun hn => ⟨fun h => hm ?_, hn⟩, fun h => h.2⟩
      subst h; exact ((hs.linked m n hn).2.2.1).symm
  have hsub : ∀ m (l : List Node), np ∉ l → l.Sublist (s.mount m).fmiHashAvl →
      l.Sublist ((s.snRmhashLocked np).mount m).fmiHashAvl := by
    intro m l hl hsub
    simp only [Cache.snRmhashLocked_eq]
    split_ifs
    · simpa [List.erase_of_not_mem hl] using hsub.erase np
    · exact hsub
  have hv : ∀ n, ((s.snRmhashLocked np).node n).vCount = (s.node n).vCount := fun n => by simp
  refine ⟨fun n hn => by simpa using hs.fresh n hn, fun n hn => by simpa using hs.refsLive n hn,
    fun n hn => (hv n).trans (hs.count n (by simpa using hn)), hs.owned, hs.heldFree, ?_, ?_,
    ?_, ?_, by simpa [Cache.liveCount] using hs.allocated,
    fun m => by simpa [Cache.vfsCount] using hs.vfsHeld m, hs.locks, ?_⟩
  · intro m n hn
    obtain ⟨hne, hn⟩ := (hmem m n).mp hn
    simpa [Linked, hne] using hs.linked m n hn
  · intro n h
    have hne : n ≠ np := by rintro rfl; simp at h
    have hm : ((s.snRmhashLocked np).node n).nMount = (s.node n).nMount := by simp
    rw [hm]
    exact (hmem _ n).mpr ⟨hne, hs.hashed n (by simp at h; exact h.1)⟩
  · intro m n hn
    exact (hv n).symm ▸ hs.pos m n ((hmem m n).mp hn).2
  · intro m
    have ho := ordered_erase (hs.ordered m) np
    simp only [Cache.snRmhashLocked_eq]
    split_ifs
    · exact ordered_congr (fun n _ => by simp) ho
    · exact ordered_congr (fun n _ => by simp) (hs.ordered m)
  · intro u pu hu
    obtain ⟨h₁, h₂, h₃, h₄, h₅⟩ := hs.pcs u pu hu
    refine ⟨fun n hn => by simp [h₁ n hn], fun mi n hsh => ?_, fun mi n hfd => ?_, h₄,
      fun mi rest rlist hpu => ?_⟩
    · obtain ⟨a, b, c, d⟩ := h₂ mi n hsh
      simp [Shell, a, b, c, d]
    · obtain ⟨w, hl⟩ := Pc.found_lock hfd
      refine (hmem mi n).mpr ⟨?_, h₃ mi n hfd⟩
      rintro rfl
      have hidx := h₃ mi n hfd
      have hlk := hs.linked mi n hidx
      exact (hlock u pu w hu (hlk.2.2.1 ▸ hl) hlk.2.1).1 mi n hfd rfl
    · have hl : pu.lock = some (mi, true) := by simp [hpu, Pc.lock]
      by_cases hm : mi = (s.node np).nMount ∧ (s.node np).rHashed
      · obtain ⟨rfl, hh⟩ := hm
        exact hsub _ rest ((hlock u pu true hu hl hh).2 _ rest rlist hpu) (h₅ _ rest rlist hpu)
      · have : ((s.snRmhashLocked np).mount mi).fmiHashAvl = (s.mount mi).fmiHashAvl := by
          simp only [Cache.snRmhashLocked_eq]
          split_ifs with hmi
          · subst hmi
            have hh : (s.node np).rHashed = false := by simpa using hm
            exact List.erase_of_not_mem (hs.not_indexed hh _)
          · rfl
        rw [this]; exact h₅ mi rest rlist hpu

/-- `sn_rmhash_locked` with no lock held on the node's mount. -/
theorem inv_snRmhashLocked_of_lockFree (hs : Inv s) {np : Node}
    (hfree : (s.node np).rHashed → s.lockFree (s.node np).nMount) : Inv (s.snRmhashLocked np) :=
  inv_snRmhashLocked hs fun _ _ _ hu hl hh => (lock_ne_of_lockFree (hfree hh) hu hl).elim

/-- Changing a predicate at one point `n < N` changes its count below `N` by that point. -/
theorem countP_range_update {p q : ℕ → Bool} {n : ℕ} (h : ∀ m, m ≠ n → q m = p m) :
    ∀ {N : ℕ}, n < N → (List.range N).countP q + (if p n then 1 else 0) =
      (List.range N).countP p + (if q n then 1 else 0)
  | 0, hn => absurd hn (Nat.not_lt_zero _)
  | N + 1, hn => by
    rw [List.range_succ, List.countP_append, List.countP_append, List.countP_singleton,
      List.countP_singleton]
    rcases Nat.lt_succ_iff_lt_or_eq.mp hn with hn | rfl
    · have := countP_range_update h hn
      rw [h N (Nat.ne_of_gt hn)]; omega
    · have : (List.range n).countP q = (List.range n).countP p :=
        List.countP_congr fun m hm => by rw [h m (Nat.ne_of_lt (List.mem_range.mp hm))]
      omega

theorem Inv.lt_nextNode (hs : Inv s) {n : Node} (hn : (s.node n).live) : n < s.nextNode := by
  by_contra h
  simp [hs.fresh n (Nat.le_of_not_lt h)] at hn

/-- A node a thread holds tentatively is live. -/
theorem Inv.live_of_tentative (hs : Inv s) (ht : s.threads[t]? = some pc) {n : Node}
    (hn : n ∈ pc.tentative) : (s.node n).live :=
  hs.refsLive n (by simp [Cache.refs, mem_flatMap_of_thread ht hn])

/-- The live nodes after one node's record changed. -/
theorem liveCount_update {np : Node} (h : ∀ n, n ≠ np → s'.node n = s.node n)
    (hlt : np < s.nextNode) (hnext : s'.nextNode = s.nextNode) :
    s'.liveCount + (if (s.node np).live then 1 else 0) =
      s.liveCount + (if (s'.node np).live then 1 else 0) := by
  unfold Cache.liveCount; rw [hnext]
  exact countP_range_update (p := fun n => (s.node n).live) (q := fun n => (s'.node n).live)
    (fun n hn => by simp only [h n hn]) hlt

/-- The live nodes of a vfs after one node's record changed. -/
theorem vfsCount_update {np : Node} (h : ∀ n, n ≠ np → s'.node n = s.node n)
    (hlt : np < s.nextNode) (hnext : s'.nextNode = s.nextNode) (m : Mount) :
    s'.vfsCount m + (if (s.node np).live ∧ (s.node np).vVfsp = m then 1 else 0) =
      s.vfsCount m + (if (s'.node np).live ∧ (s'.node np).vVfsp = m then 1 else 0) := by
  unfold Cache.vfsCount; rw [hnext]
  have := countP_range_update (p := fun n => (s.node n).live && (s.node n).vVfsp == m)
    (q := fun n => (s'.node n).live && (s'.node n).vVfsp == m) (fun n hn => by simp only [h n hn]) hlt
  simpa using this

/-- After one node's record changed, `fusenodenew` still counts the live nodes if it moved as
that node's liveness did. -/
theorem Inv.allocated_update (hs : Inv s) {np : Node} (h : ∀ n, n ≠ np → s'.node n = s.node n)
    (hlt : np < s.nextNode) (hnext : s'.nextNode = s.nextNode)
    (hnew : s'.fusenodenew + (if (s.node np).live then 1 else 0) =
      s.fusenodenew + (if (s'.node np).live then 1 else 0)) :
    s'.fusenodenew = s'.liveCount := by
  have := liveCount_update h hlt hnext
  have := hs.allocated
  omega

/-- After one node's record changed, the vfs holds still count the live nodes of each vfs if
they moved as that node's liveness and vfs did. -/
theorem Inv.vfsHeld_update (hs : Inv s) {np : Node} (h : ∀ n, n ≠ np → s'.node n = s.node n)
    (hlt : np < s.nextNode) (hnext : s'.nextNode = s.nextNode)
    (hholds : ∀ m, (s'.mount m).vfsHolds +
        (if (s.node np).live ∧ (s.node np).vVfsp = m then 1 else 0) =
      (s.mount m).vfsHolds + (if (s'.node np).live ∧ (s'.node np).vVfsp = m then 1 else 0))
    (m : Mount) : (s'.mount m).vfsHolds = s'.vfsCount m := by
  have := vfsCount_update h hlt hnext m
  have := hs.vfsHeld m
  have := hholds m
  omega

theorem one_le_fusenodenew (hs : Inv s) {np : Node} (hlive : (s.node np).live) :
    1 ≤ s.fusenodenew := by
  rw [hs.allocated]
  exact List.countP_pos_iff.mpr ⟨np, List.mem_range.mpr (hs.lt_nextNode hlive), hlive⟩

theorem one_le_vfsHolds (hs : Inv s) {np : Node} (hlive : (s.node np).live) :
    1 ≤ (s.mount (s.node np).vVfsp).vfsHolds := by
  rw [hs.vfsHeld]
  exact List.countP_pos_iff.mpr ⟨np, List.mem_range.mpr (hs.lt_nextNode hlive), by simp [hlive]⟩

/-- `make_fusenode` turns its victim, whose only count is the thread's, into a shell for
`mi`: `VFS_RELE` of the old vfs, `vn_reinit`, `VFS_HOLD` of the new one. -/
theorem inv_reinit (hs : Inv s) {mi : Mount} {rpath : Path} {np : Node}
    (ht : s.threads[t]? = some (.mkReinit mi rpath np)) (hle : ¬ 1 < (s.node np).vCount) :
    Inv ((s.releaseVfs np).initShell np mi) := by
  have htent : np ∈ (Pc.mkReinit mi rpath np).tentative := by simp [Pc.tentative]
  have hun : (s.node np).rHashed = false := (hs.pcs t _ ht).1 np (by simp [Pc.unhashed])
  have hlive := hs.live_of_tentative ht htent
  have hone : s.refs.count np = 1 := by
    have := hs.count_tentative ht htent; rw [← hs.count np hlive]; omega
  have hne : ∀ m, ∀ n ∈ (s.mount m).fmiHashAvl, n ≠ np := fun m n hn h =>
    hs.not_indexed hun m (h ▸ hn)
  have hlt := hs.lt_nextNode hlive
  have hother : ∀ n, n ≠ np → ((s.releaseVfs np).initShell np mi).node n = s.node n :=
    fun n hn => by simp [hn]
  refine ⟨fun n hn => ?_, fun n hn => ?_, fun n hn => ?_, hs.owned, hs.heldFree, fun m n hn => ?_,
    fun n h => ?_, fun m n hn => ?_, fun m => ?_, ?_, fun m => ?_, hs.locks, fun u pu hu => ?_⟩
  · have hn : s.nextNode ≤ n := by simpa using hn
    rw [hother n (Nat.ne_of_gt (lt_of_lt_of_le hlt hn))]; exact hs.fresh n hn
  · by_cases h : n = np
    · subst h; simp
    · rw [hother n h]; exact hs.refsLive n hn
  · by_cases h : n = np
    · subst h; simpa using hone.symm
    · rw [hother n h] at hn ⊢; exact hs.count n hn
  · simp only [Cache.releaseVfs_eq, Cache.initShell_eq] at hn
    simpa [Linked, hne m n hn] using hs.linked m n hn
  · have : n ≠ np := by rintro rfl; simp at h
    rw [hother n this] at h ⊢; simpa using hs.hashed n h
  · simp only [Cache.releaseVfs_eq, Cache.initShell_eq] at hn
    simpa [hne m n hn] using hs.pos m n hn
  · simpa using ordered_congr (fun n hn => by simp [hne m n hn]) (hs.ordered m)
  · exact hs.allocated_update hother hlt rfl (by simp [hlive])
  · refine hs.vfsHeld_update hother hlt rfl (fun m => ?_) m
    have := one_le_vfsHolds hs hlive
    by_cases h₁ : (s.node np).vVfsp = m
    · subst h₁
      by_cases h₂ : mi = (s.node np).vVfsp
      · simp [hlive, h₂]; omega
      · simp [hlive, h₂, Ne.symm h₂]; omega
    · by_cases h₂ : mi = m
      · subst h₂; simp [hlive, h₁, Ne.symm h₁]
      · simp [hlive, h₁, h₂, Ne.symm h₁, Ne.symm h₂]
  · replace hu : s.threads[u]? = some pu := hu
    obtain ⟨h₁, h₂, h₃, h₄, h₅⟩ := hs.pcs u pu hu
    refine ⟨fun n hn => ?_, fun mi' n hsh => ?_, fun mi' n hfd => by simpa using h₃ mi' n hfd,
      h₄, fun mi' rest rlist hpu => by simpa using h₅ mi' rest rlist hpu⟩
    · by_cases h : n = np
      · subst h; simp
      · rw [hother n h]; exact h₁ n hn
    · have hne' : n ≠ np := by
        intro h; subst h
        by_cases hut : u = t
        · rw [hut, ht] at hu; cases hu; simp [Pc.shell] at hsh
        · exact hs.tentative_disjoint hu ht hut (Pc.shell_tentative hsh) htent
      unfold Shell; rw [hother n hne']; exact h₂ mi' n hsh

/-- `sn_destroy_node` on the node `fusefs_addfree` runs on, whose only count is the thread's. -/
theorem inv_destroy (hs : Inv s) {np : Node} {k : AddfreeCont}
    (ht : s.threads[t]? = some (.afRecheck np k)) (hle : ¬ 1 < (s.node np).vCount) :
    Inv ((s.snDestroyNode np).setPc t k.ret) := by
  have htent : np ∈ (Pc.afRecheck np k).tentative := by simp [Pc.tentative]
  have hok := hs.pcs t _ ht
  have hun : (s.node np).rHashed = false := hok.1 np (by simp [Pc.unhashed])
  have hlive := hs.live_of_tentative ht htent
  have hlt := hs.lt_nextNode hlive
  have hflat := flatMap_set_perm_append (A := [np]) (B := []) (q := k.ret) ht
    (by rw [AddfreeCont.ret_tentative, List.append_nil]
        exact (List.perm_append_singleton _ _).symm)
  rw [List.append_nil] at hflat
  have hrefs : (((s.snDestroyNode np).setPc t k.ret).refs ++ [np]).Perm s.refs := by
    simpa [Cache.refs] using hflat.append_left (s.held ++ s.paged ++ s.fusefreelist)
  have hgone : np ∉ ((s.snDestroyNode np).setPc t k.ret).refs := by
    have h₁ := hs.count_tentative ht htent
    have h₂ := hrefs.count_eq np
    rw [List.count_append, List.count_singleton_self, ← hs.count np hlive] at h₂
    rw [← List.count_eq_zero]; omega
  have hne : ∀ m, ∀ n ∈ (s.mount m).fmiHashAvl, n ≠ np := fun m n hn h =>
    hs.not_indexed hun m (h ▸ hn)
  have hother : ∀ n, n ≠ np → ((s.snDestroyNode np).setPc t k.ret).node n = s.node n :=
    fun n hn => by simp [hn]
  have hidx : ∀ m, (((s.snDestroyNode np).setPc t k.ret).mount m).fmiHashAvl =
      (s.mount m).fmiHashAvl := fun m => by simp
  refine ⟨fun n hn => ?_, fun n hn => ?_, fun n hn => ?_, nodup_of_perm_append hflat hs.owned,
    hs.heldFree, fun m n hn => ?_, fun n h => ?_, fun m n hn => ?_, fun m => ?_, ?_, ?_,
    locksOk_setPc hs.locks ht (.inl k.ret_lock), ?_⟩
  · rw [hother n (Nat.ne_of_gt (lt_of_lt_of_le hlt hn))]; exact hs.fresh n hn
  · have : n ≠ np := fun h => hgone (h ▸ hn)
    rw [hother n this]; exact hs.refsLive n (hrefs.subset (List.mem_append_left _ hn))
  · have hnp : n ≠ np := by rintro rfl; simp at hn
    have h₂ := hrefs.count_eq n
    rw [List.count_append, List.count_singleton, if_neg (by simpa using Ne.symm hnp)] at h₂
    rw [hother n hnp] at hn ⊢
    rw [hs.count n hn]; omega
  · rw [hidx] at hn; unfold Linked; rw [hother n (hne m n hn)]; exact hs.linked m n hn
  · have : n ≠ np := by rintro rfl; simp [hun] at h
    rw [hother n this] at h ⊢; rw [hidx]; exact hs.hashed n h
  · rw [hidx] at hn; rw [hother n (hne m n hn)]; exact hs.pos m n hn
  · rw [hidx]; exact ordered_congr (fun n hn => by simp [hne m n hn]) (hs.ordered m)
  · have := one_le_fusenodenew hs hlive
    exact hs.allocated_update hother hlt rfl (by simp [hlive]; omega)
  · refine hs.vfsHeld_update hother hlt rfl fun m => ?_
    have := one_le_vfsHolds hs hlive
    by_cases h : (s.node np).vVfsp = m
    · subst h; simp [hlive]; omega
    · simp [hlive, h, Ne.symm h]
  · refine forall_setPc ht (fun u pu hut hu => ?_) (PcOk.ret fun n hn => by
      simpa using hok.1 n (by simp [Pc.unhashed, hn]))
    obtain ⟨h₁, h₂, h₃, h₄, h₅⟩ := hs.pcs u pu hu
    refine ⟨fun n hn => by simpa using h₁ n hn, fun mi n hsh => ?_,
      fun mi n hfd => by simpa using h₃ mi n hfd, h₄,
      fun mi rest rlist hpu => by simpa using h₅ mi rest rlist hpu⟩
    have hne' : n ≠ np := fun h =>
      hs.tentative_disjoint hu ht hut (Pc.shell_tentative hsh) (h ▸ htent)
    unfold Shell; rw [hother n hne']; exact h₂ mi n hsh

/-- `make_fusenode`'s fresh allocation: a new live node, a shell for `mi` whose count is the
thread's. -/
theorem inv_alloc (hs : Inv s) {mi : Mount} {rpath : Path}
    (ht : s.threads[t]? = some (.mkAlloc mi rpath)) :
    Inv ((s.allocNode.initShell s.nextNode mi).setPc t (.mkInsert mi rpath s.nextNode)) := by
  have hNlive : (s.node s.nextNode).live = false := hs.fresh _ le_rfl
  have hNrefs : s.nextNode ∉ s.refs := fun h => by simp [hs.refsLive _ h] at hNlive
  have hNidx : ∀ m, s.nextNode ∉ (s.mount m).fmiHashAvl := fun m h => by
    have := (hs.linked m _ h).1; simp [hNlive] at this
  have hflat := flatMap_set_perm_append (A := []) (B := [s.nextNode])
    (q := .mkInsert mi rpath s.nextNode) ht (by simp [Pc.tentative])
  rw [List.append_nil, List.perm_iff_count] at hflat
  have hrefs : ((s.allocNode.initShell s.nextNode mi).setPc t
      (.mkInsert mi rpath s.nextNode)).refs.Perm (s.refs ++ [s.nextNode]) := by
    rw [List.perm_iff_count]; intro a; have := hflat a
    simp only [Cache.refs, Cache.setPc, Cache.allocNode_eq, Cache.initShell_eq,
      List.count_append] at this ⊢
    omega
  have hother : ∀ n, n ≠ s.nextNode → ((s.allocNode.initShell s.nextNode mi).setPc t
      (.mkInsert mi rpath s.nextNode)).node n = s.node n := fun n hn => by simp [hn]
  have hidx : ∀ m, (((s.allocNode.initShell s.nextNode mi).setPc t
      (.mkInsert mi rpath s.nextNode)).mount m).fmiHashAvl = (s.mount m).fmiHashAvl :=
    fun m => by simp
  have hne : ∀ m, ∀ n ∈ (s.mount m).fmiHashAvl, n ≠ s.nextNode := fun m n hn h =>
    hNidx m (h ▸ hn)
  refine ⟨fun n hn => ?_, fun n hn => ?_, fun n hn => ?_, ?_, hs.heldFree, fun m n hn => ?_,
    fun n h => ?_, fun m n hn => ?_, fun m => ?_, ?_, fun m => ?_,
    locksOk_setPc hs.locks ht (.inl rfl), ?_⟩
  · have hn : s.nextNode < n := by simpa using hn
    rw [hother n (Nat.ne_of_gt hn)]; exact hs.fresh n hn.le
  · rcases List.mem_append.mp (hrefs.subset hn) with h | h
    · rw [hother n fun h' => hNrefs (h' ▸ h)]; exact hs.refsLive n h
    · simp at h; subst h; simp
  · have hc := hrefs.count_eq n
    rw [List.count_append, List.count_singleton] at hc
    by_cases h : n = s.nextNode
    · subst h; simp [List.count_eq_zero_of_not_mem hNrefs] at hc ⊢; omega
    · rw [hother n h] at hn ⊢
      rw [if_neg (by simpa using Ne.symm h)] at hc
      rw [hs.count n hn]; omega
  · refine (List.Perm.nodup_iff ?_).mpr (List.nodup_cons.mpr
      ⟨fun h => hNrefs (by simp only [Cache.refs, List.mem_append] at h ⊢; tauto), hs.owned⟩)
    rw [List.perm_iff_count]; intro a; have := hflat a
    simp only [Cache.setPc, Cache.allocNode_eq, Cache.initShell_eq, List.count_append,
      List.count_cons, List.count_nil] at this ⊢
    omega
  · rw [hidx] at hn; unfold Linked; rw [hother n (hne m n hn)]; exact hs.linked m n hn
  · have : n ≠ s.nextNode := by rintro rfl; simp at h
    rw [hother n this] at h ⊢; rw [hidx]; exact hs.hashed n h
  · rw [hidx] at hn; rw [hother n (hne m n hn)]; exact hs.pos m n hn
  · rw [hidx]; exact ordered_congr (fun n hn => by simp [hne m n hn]) (hs.ordered m)
  · have hc : (List.range s.nextNode).countP (fun n => (((s.allocNode.initShell s.nextNode mi).setPc t
        (.mkInsert mi rpath s.nextNode)).node n).live) = s.liveCount :=
      List.countP_congr fun n hn => by rw [hother n (Nat.ne_of_lt (List.mem_range.mp hn))]
    show s.fusenodenew + 1 = (List.range (s.nextNode + 1)).countP _
    rw [List.range_succ, List.countP_append, hc, hs.allocated]; simp
  · have hc : (List.range s.nextNode).countP (fun n =>
        (((s.allocNode.initShell s.nextNode mi).setPc t (.mkInsert mi rpath s.nextNode)).node n).live &&
        (((s.allocNode.initShell s.nextNode mi).setPc t (.mkInsert mi rpath s.nextNode)).node n).vVfsp
          == m) = s.vfsCount m :=
      List.countP_congr fun n hn => by rw [hother n (Nat.ne_of_lt (List.mem_range.mp hn))]
    have hv : (((s.allocNode.initShell s.nextNode mi).setPc t
        (.mkInsert mi rpath s.nextNode)).mount m).vfsHolds =
        (s.mount m).vfsHolds + if m = mi then 1 else 0 := by simp
    rw [hv]
    show _ = (List.range (s.nextNode + 1)).countP _
    rw [List.range_succ, List.countP_append, hc, hs.vfsHeld m]
    by_cases h : m = mi
    · subst h; simp
    · simp [h, Ne.symm h]
  · refine forall_setPc ht (fun u pu _ hu => ?_) (by simp [PcOk, Pc.unhashed, Pc.shell, Pc.found, Shell])
    obtain ⟨h₁, h₂, h₃, h₄, h₅⟩ := hs.pcs u pu hu
    refine ⟨fun n hn => ?_, fun mi' n hsh => ?_, fun mi' n hfd => by simpa using h₃ mi' n hfd,
      h₄, fun mi' rest rlist hpu => by simpa using h₅ mi' rest rlist hpu⟩
    · by_cases h : n = s.nextNode
      · subst h; simp
      · rw [hother n h]; exact h₁ n hn
    · have hsh' := h₂ mi' n hsh
      have hne' : n ≠ s.nextNode := by rintro rfl; simp [Shell, hNlive] at hsh'
      unfold Shell; rw [hother n hne']; exact hsh'

/-- `sn_addhash_locked` on the thread's shell, whose count becomes the caller's. -/
theorem inv_insert (hs : Inv s) {mi : Mount} {rpath : Path} {np : Node}
    (ht : s.threads[t]? = some (.mkInsert mi rpath np)) (hfree : s.lockFree mi)
    (hfind : avlFind s.hdr (s.mount mi).fmiHashAvl rpath.hdr = none) :
    Inv (((s.snAddhashLocked np rpath).addHeld np).setPc t (.returned (some np) true)) := by
  have htent : np ∈ (Pc.mkInsert mi rpath np).tentative := by simp [Pc.tentative]
  obtain ⟨hlive, hun, hmount, hvfsp⟩ := (hs.pcs t _ ht).2.1 mi np (by simp [Pc.shell])
  have hne : ∀ m, ∀ n ∈ (s.mount m).fmiHashAvl, n ≠ np := fun m n hn h =>
    hs.not_indexed hun m (h ▸ hn)
  have hflat := flatMap_set_perm_append (A := [np]) (B := []) (q := .returned (some np) true) ht
    (by simp [Pc.tentative])
  rw [List.append_nil] at hflat
  have hrefs : (((s.snAddhashLocked np rpath).addHeld np).setPc t
      (.returned (some np) true)).refs.Perm s.refs := by
    rw [List.perm_iff_count] at hflat ⊢; intro a; have := hflat a
    simp only [Cache.refs, Cache.setPc, Cache.addHeld, Cache.snAddhashLocked_eq, List.count_append,
      List.count_cons, List.count_nil] at this ⊢
    omega
  have hother : ∀ n, n ≠ np → (((s.snAddhashLocked np rpath).addHeld np).setPc t
      (.returned (some np) true)).node n = s.node n := fun n hn => by simp [hn]
  have hhdr : (((s.snAddhashLocked np rpath).addHeld np).setPc t (.returned (some np) true)).hdr =
      Function.update s.hdr np rpath.hdr := by
    funext n; by_cases h : n = np
    · subst h; simp [Path.hdr]
    · simp [h]
  have hidx : ∀ m, ((((s.snAddhashLocked np rpath).addHeld np).setPc t
      (.returned (some np) true)).mount m).fmiHashAvl = if m = mi then
        avlInsert (Function.update s.hdr np rpath.hdr) rpath.hdr np (s.mount m).fmiHashAvl
        else (s.mount m).fmiHashAvl := fun m => by simp [hmount]
  have hmem : ∀ m n, n ∈ ((((s.snAddhashLocked np rpath).addHeld np).setPc t
      (.returned (some np) true)).mount m).fmiHashAvl ↔
        (m = mi ∧ n = np) ∨ n ∈ (s.mount m).fmiHashAvl := fun m n => by
    rw [hidx]; split_ifs with h <;> simp [h]
  have hcnt := hs.count_tentative ht htent
  have hlv : ∀ n, ((((s.snAddhashLocked np rpath).addHeld np).setPc t
      (.returned (some np) true)).node n).live = (s.node n).live ∧
      ((((s.snAddhashLocked np rpath).addHeld np).setPc t
      (.returned (some np) true)).node n).vCount = (s.node n).vCount := fun n => by
    by_cases h : n = np
    · subst h; simp
    · rw [hother n h]; exact ⟨rfl, rfl⟩
  refine ⟨fun n hn => (hlv n).1.trans (hs.fresh n hn), fun n hn => (hlv n).1 ▸ hs.refsLive n (hrefs.subset hn),
    fun n hn => hs.count_of_perm (A := []) (B := []) (by simpa using hrefs)
      (fun n _ => by rw [(hlv n).2]) n ((hlv n).1 ▸ hn),
    nodup_of_perm_append hflat hs.owned, ?_, fun m n hn => ?_,
    fun n h => ?_, fun m n hn => ?_, fun m => ?_, ?_, fun m => ?_,
    locksOk_setPc hs.locks ht (.inl rfl), ?_⟩
  · intro n hn
    simp only [Cache.setPc, Cache.addHeld, Cache.snAddhashLocked_eq, List.mem_cons] at hn ⊢
    rcases hn with rfl | hn
    · exact hs.tentative_not_free ht htent
    · exact hs.heldFree n hn
  · rcases (hmem m n).mp hn with ⟨rfl, rfl⟩ | hn
    · simp [Linked, hlive, hmount, hvfsp]
    · unfold Linked; rw [hother n (hne m n hn)]; exact hs.linked m n hn
  · by_cases hn : n = np
    · subst hn; exact (hmem _ _).mpr (.inl ⟨by simp [hmount], rfl⟩)
    · rw [hother n hn] at h ⊢; exact (hmem _ n).mpr (.inr (hs.hashed n h))
  · rcases (hmem m n).mp hn with ⟨rfl, rfl⟩ | hn
    · rw [(hlv _).2]; omega
    · rw [hother n (hne m n hn)]; exact hs.pos m n hn
  · rw [hhdr, hidx]
    split_ifs with h
    · subst h
      have ho : Ordered (Function.update s.hdr np rpath.hdr) (s.mount m).fmiHashAvl :=
        ordered_congr (fun n hn => by simp [hne m n hn]) (hs.ordered m)
      refine ordered_avlInsert ho
        (fun n hn => by simpa [Function.update_noteq (hne m n hn)] using hs.hdrsWellFormed m n hn)
        rfl (by simp) ?_
      have hf : avlFind (Function.update s.hdr np rpath.hdr) (s.mount m).fmiHashAvl rpath.hdr =
          avlFind s.hdr (s.mount m).fmiHashAvl rpath.hdr :=
        avlFind_congr (fun n hn => by simp [hne m n hn]) _
      rw [hf]; exact hfind
    · exact ordered_congr (fun n hn => by simp [hne m n hn]) (hs.ordered m)
  · have : (((s.snAddhashLocked np rpath).addHeld np).setPc t
        (.returned (some np) true)).liveCount = s.liveCount :=
      List.countP_congr fun n _ => by rw [(hlv n).1]
    rw [this]; exact hs.allocated
  · have : (((s.snAddhashLocked np rpath).addHeld np).setPc t
        (.returned (some np) true)).vfsCount m = s.vfsCount m :=
      List.countP_congr fun n _ => by
        by_cases h : n = np
        · subst h; simp
        · rw [hother n h]
    rw [this, ← hs.vfsHeld m]; simp
  · refine forall_setPc ht (fun u pu hut hu => ?_) (by simp [PcOk, Pc.unhashed, Pc.shell, Pc.found])
    obtain ⟨h₁, h₂, h₃, h₄, h₅⟩ := hs.pcs u pu hu
    have hkeep : ∀ m w, pu.lock = some (m, w) → ((((s.snAddhashLocked np rpath).addHeld np).setPc t
        (.returned (some np) true)).mount m).fmiHashAvl = (s.mount m).fmiHashAvl := fun m w hl => by
      rw [hidx, if_neg]; rintro rfl; exact lock_ne_of_lockFree hfree hu hl
    refine ⟨fun n hn => ?_, fun mi' n hsh => ?_, fun mi' n hfd => ?_, h₄,
      fun mi' rest rlist hpu => ?_⟩
    · have : n ≠ np := fun h =>
        hs.tentative_disjoint hu ht hut (Pc.unhashed_subset pu n hn) (h ▸ htent)
      rw [hother n this]; exact h₁ n hn
    · have : n ≠ np := fun h =>
        hs.tentative_disjoint hu ht hut (Pc.shell_tentative hsh) (h ▸ htent)
      unfold Shell; rw [hother n this]; exact h₂ mi' n hsh
    · obtain ⟨w, hl⟩ := Pc.found_lock hfd
      rw [hkeep mi' w hl]; exact h₃ mi' n hfd
    · rw [hkeep mi' true (by simp [hpu, Pc.lock])]; exact h₅ mi' rest rlist hpu

/-- One iteration of `fusefs_destroy_table`'s drain on a node of the freelist: unlinked from
the freelist and from the index the thread holds as writer, the node goes on `rlist`. -/
theorem inv_drain (hs : Inv s) {mi : Mount} {np : Node} {rest rlist : List Node}
    (ht : s.threads[t]? = some (.dtDrain mi rest rlist)) (hnp : np ∈ rest)
    (hfl : np ∈ s.fusefreelist) : Inv (s.drainOne t mi np rest rlist) := by
  have hok := hs.pcs t _ ht
  have hsub : rest.Sublist (s.mount mi).fmiHashAvl := hok.2.2.2.2 mi rest rlist rfl
  have hM : (s.node np).nMount = mi := (hs.linked mi np (hsub.subset hnp)).2.2.1
  have hnodup : rest.Nodup := (hs.index_nodup mi).sublist hsub
  -- the thread first moves past `np`
  have hA : Inv (s.setPc t (.dtDrain mi (rest.erase np) rlist)) :=
    inv_setPc hs ht rfl (.inr (.inl rfl)) ⟨hok.1, by simp [Pc.shell], by simp [Pc.found],
      by simp, fun m r l h => by cases h; exact (List.erase_sublist _ _).trans hsub⟩
  have htA : (s.setPc t (.dtDrain mi (rest.erase np) rlist)).threads[t]? =
      some (.dtDrain mi (rest.erase np) rlist) := by
    simp only [Cache.setPc]; rw [getElem?_setPc ht]; simp
  -- then unlinks it under its own writer lock
  have hB : Inv ((s.setPc t (.dtDrain mi (rest.erase np) rlist)).snRmhashLocked np) := by
    refine inv_snRmhashLocked hA fun u pu w hu hl _ => ?_
    by_cases hut : u = t
    · subst hut; rw [htA] at hu; cases hu
      exact ⟨by simp [Pc.found], fun _ _ _ h => by cases h; exact hnodup.not_mem_erase⟩
    · simp only [Cache.setPc] at hu; rw [getElem?_setPc ht, if_neg hut] at hu
      have := hs.locks u t pu _ mi w true hut hu ht (by simpa [hM] using hl) rfl
      simp at this
  -- and takes the freelist's count onto `rlist`
  have hC : Inv ((((s.setPc t (.dtDrain mi (rest.erase np) rlist)).snRmhashLocked np).snRmfree
      np).setPc t (.dtDrain mi (rest.erase np) (np :: rlist))) := by
    refine inv_pop hB htA (by simpa using hfl) (by simp [Pc.tentative]) (.inr (.inl rfl))
      ⟨fun n hn => ?_, by simp [Pc.shell], by simp [Pc.found], by simp, fun m r l h => ?_⟩
    · simp only [Pc.unhashed, List.mem_cons] at hn
      rcases hn with rfl | hn
      · simp
      · simp [hok.1 n hn]
    · cases h; exact (hB.pcs t _ htA).2.2.2.2 mi _ rlist rfl
  rw [s.drainOne_of_mem hfl hM (hs.linked mi np (hsub.subset hnp)).2.1]
  convert hC using 1
  simp [List.set_set]

end Transitions

end FusefsNode
