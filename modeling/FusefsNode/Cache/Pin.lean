import FusefsNode.Cache.Agree

/-!
# A reference pins a linked node

A caller of `fusefs_node_findcreate` holds a vnode reference to the node it got.  While it
does, the cache never takes that node away: `make_fusenode` recycles only a victim whose
count is the freelist's alone, `fusefs_addfree` and `fusefs_node_reclaim` unlink and destroy
only a node they own alone, and `fusefs_destroy_table` drains only nodes on the freelist,
which no caller holds.  So a linked node a caller holds stays linked under its path, whatever
the other threads do, until its holder calls `fusefs_rmhash` on it or releases it
(`held_stays_linked`).

## Strategy

* `Cache.Pins s s' n`: from `s` to `s'`, the node `n` stays held if it was, stays in every
  index it was in, and keeps its path.  Each update has its lemma, with the condition that it
  is not applied to `n` where it would move it.
* `Inv.runPc_pins`: a thread's step pins a held, linked node.  The updates that could move it
  apply to a node the stepping thread owns alone (`¬ 1 < v_count`, which a held node's count
  exceeds), to a node the thread knows unlinked, to its unlinked shell, or to a fresh node.
* `Inv.step_pins` adds the other actions, and `held_stays_linked` is the induction over a run.
-/

namespace FusefsNode

/-- From `s` to `s'`, the node `n` stays held if it was, stays in every index it was in, and
keeps its path. -/
def Cache.Pins (s s' : Cache) (n : Node) : Prop :=
  (n ∈ s.held → n ∈ s'.held) ∧
    (∀ m, n ∈ (s.mount m).fmiHashAvl → n ∈ (s'.mount m).fmiHashAvl) ∧
    (s'.node n).nRpath = (s.node n).nRpath

/-! ## The updates -/

namespace Cache

section Updates

variable {s s' s'' : Cache} {n v : Node}

theorem Pins.trans (h₁ : s.Pins s' n) (h₂ : s'.Pins s'' n) : s.Pins s'' n :=
  ⟨h₂.1 ∘ h₁.1, fun m hm => h₂.2.1 m (h₁.2.1 m hm), h₂.2.2.trans h₁.2.2⟩

/-- An update that keeps the callers' references, every index and the node's path. -/
theorem Pins.of_eq (hh : s'.held = s.held)
    (hidx : ∀ m, (s'.mount m).fmiHashAvl = (s.mount m).fmiHashAvl)
    (hp : (s'.node n).nRpath = (s.node n).nRpath) : s.Pins s' n :=
  ⟨fun h => hh ▸ h, fun m h => (hidx m).symm ▸ h, hp⟩

theorem Pins.refl : s.Pins s n := .of_eq rfl (fun _ => rfl) rfl

theorem Pins.addHeld (h : s.Pins s' n) (v : Node) : s.Pins (s'.addHeld v) n :=
  ⟨fun hn => List.mem_cons_of_mem v (h.1 hn), h.2⟩

theorem pins_vnHold (v : Node) : s.Pins (s.vnHold v) n := .of_eq rfl (fun _ => rfl) (by simp)

theorem pins_vnRele (v : Node) : s.Pins (s.vnRele v) n := .of_eq rfl (fun _ => rfl) (by simp)

theorem pins_snDestroyNode (v : Node) : s.Pins (s.snDestroyNode v) n :=
  .of_eq rfl (fun _ => by simp) (by simp)

theorem pins_snRmhashLocked (hv : v ≠ n) : s.Pins (s.snRmhashLocked v) n := by
  refine ⟨id, fun m hm => ?_, by simp⟩
  simp only [snRmhashLocked_eq]
  split_ifs
  exacts [(List.mem_erase_of_ne hv.symm).mpr hm, hm]

theorem pins_snInactive (hv : v ≠ n) : s.Pins (s.snInactive v) n :=
  .of_eq rfl (fun _ => rfl) (by simp [hv.symm])

theorem pins_snAddhashLocked (hv : v ≠ n) (p : Path) : s.Pins (s.snAddhashLocked v p) n := by
  refine ⟨id, fun m hm => ?_, by simp [hv.symm]⟩
  simp only [snAddhashLocked_eq]
  split_ifs
  exacts [mem_avlInsert.mpr (.inr hm), hm]

theorem pins_initShell (hv : v ≠ n) (mi : Mount) : s.Pins (s.initShell v mi) n :=
  .of_eq rfl (fun _ => by simp) (by simp [hv.symm])

theorem pins_releaseVfs (v : Node) : s.Pins (s.releaseVfs v) n :=
  .of_eq rfl (fun _ => by simp) rfl

theorem pins_allocNode (hv : s.nextNode ≠ n) : s.Pins s.allocNode n :=
  .of_eq rfl (fun _ => rfl) (by simp [hv.symm])

theorem pins_vnReleInactive (t : Tid) (v : Node) : s.Pins (s.vnReleInactive t v) n := by
  unfold vnReleInactive
  split_ifs
  exacts [pins_vnRele v, Pins.refl]

end Updates

end Cache

/-! ## One step -/

section Step

variable {s s' : Cache} {t : Tid} {pc : Pc} {n : Node} {m : Mount}

/-- A node a thread owns with `v_count` at most one has no caller. -/
theorem Inv.not_held_of_alone (hs : Inv s) (ht : s.threads[t]? = some pc) {v : Node}
    (hv : v ∈ pc.tentative) (hle : ¬ 1 < (s.node v).vCount) : v ∉ s.held := fun hn => by
  have := hs.count_tentative ht hv
  have := List.count_pos_iff.mpr hn
  omega

/-- The node `kmem_cache_alloc` hands out next has no caller. -/
theorem Inv.nextNode_not_held (hs : Inv s) : s.nextNode ∉ s.held := fun hn =>
  (hs.lt_nextNode (hs.refsLive _ (by simp [Cache.refs, hn]))).false

/-- **A thread's step pins a held, linked node.** -/
theorem Inv.runPc_pins (hs : Inv s) (ht : s.threads[t]? = some pc)
    (h : s.runPc t pc = some s') (hn : n ∈ s.held) (hm : n ∈ (s.mount m).fmiHashAvl) :
    s.Pins s' n := by
  have hh : (s.node n).rHashed := (hs.linked m n hm).2.1
  have alone : ∀ v ∈ pc.tentative, ¬ 1 < (s.node v).vCount → v ≠ n :=
    fun v hv hle he => hs.not_held_of_alone ht hv hle (he ▸ hn)
  have unlinked : ∀ v, (s.node v).rHashed = false → v ≠ n := by
    rintro v hv rfl
    simp [hh] at hv
  have hok := hs.pcs t pc ht
  cases pc with
  | hfLock mi v k =>
    dsimp only [Cache.runPc] at h
    split_ifs at h <;> cases h
    exacts [Cache.Pins.refl.addHeld v, Cache.Pins.refl]
  | hfHold mi v k => cases h; exact (Cache.pins_vnHold v).addHeld v
  | mkAlloc mi rpath =>
    cases h
    have hfresh : s.nextNode ≠ n := fun he => hs.nextNode_not_held (he ▸ hn)
    exact (Cache.pins_allocNode hfresh).trans (Cache.pins_initShell hfresh mi)
  | mkUnhash mi rpath v | afUnhash v _ | rcUnhash v =>
    dsimp only [Cache.runPc] at h
    split_ifs at h with _ hgt <;> cases h
    exacts [Cache.pins_vnRele v, Cache.pins_snRmhashLocked (alone v (by simp [Pc.tentative]) hgt)]
  | mkInactive mi rpath v | afInactive v _ =>
    cases h; exact Cache.pins_snInactive (unlinked v (hok.1 v (by simp [Pc.unhashed])))
  | mkReinit mi rpath v =>
    dsimp only [Cache.runPc] at h
    split_ifs at h with hgt <;> cases h
    exacts [Cache.pins_vnRele v, (Cache.pins_releaseVfs v).trans
      (Cache.pins_initShell (alone v (by simp [Pc.tentative]) hgt) mi)]
  | mkInsert mi rpath v =>
    dsimp only [Cache.runPc] at h
    (repeat' split at h) <;> cases h
    exacts [Cache.Pins.refl, (Cache.pins_snAddhashLocked
      (unlinked v (pcOk_mkInsert.mp hok).2.1) rpath).addHeld v]
  | afRecheck v _ =>
    dsimp only [Cache.runPc] at h
    split_ifs at h <;> cases h
    exacts [Cache.pins_vnRele v, Cache.pins_snDestroyNode v]
  | afPool v _ =>
    dsimp only [Cache.runPc] at h
    split_ifs at h <;> cases h
    exacts [Cache.pins_vnRele v, Cache.Pins.refl]
  | ctRead _ _ _ _ _ field => cases field <;> cases h <;> exact Cache.Pins.refl
  | _ => dsimp only [Cache.runPc] at h; (repeat' split at h) <;> cases h <;> exact Cache.Pins.refl

/-- **Every action pins a held, linked node**, but its holder's `fusefs_rmhash` of it and the
release of a reference to it. -/
theorem Inv.step_pins {a : Action} (hs : Inv s) (h : s.step a = some s') (hn : n ∈ s.held)
    (hm : n ∈ (s.mount m).fmiHashAvl) (ha : ∀ t, a ≠ .release t n ∧ a ≠ .rmhash t n) :
    s.Pins s' n := by
  cases a with
  | run t =>
    obtain ⟨pc, ht, h⟩ := Option.bind_eq_some.mp h
    exact hs.runPc_pins ht h hn hm
  | drain t v =>
    dsimp only [Cache.step] at h
    split at h <;> try cases h
    split_ifs at h; cases h
    unfold Cache.drainOne
    split_ifs with hfl
    · have hv : v ≠ n := by rintro rfl; exact hs.heldFree _ hn hfl
      refine ⟨id, fun m' hm' => ?_, by simp [Cache.setNode, Cache.setMount, hv.symm]⟩
      simp only [Cache.setNode, Cache.setMount, Cache.setPc, Cache.snRmfree, Function.update_apply]
      split_ifs with hm''
      · subst hm''; exact (List.mem_erase_of_ne hv.symm).mpr hm'
      · exact hm'
    · exact Cache.Pins.refl
  | release t v =>
    dsimp only [Cache.step] at h
    split_ifs at h; cases h
    have hv : v ≠ n := by rintro rfl; exact (ha t).1 rfl
    have herase : s.Pins { s with held := s.held.erase v } n :=
      ⟨(List.mem_erase_of_ne hv.symm).mpr, fun _ h => h, rfl⟩
    exact herase.trans (Cache.pins_vnReleInactive t v)
  | rmhash t v =>
    dsimp only [Cache.step] at h
    split_ifs at h; cases h
    exact Cache.pins_snRmhashLocked (by rintro rfl; exact (ha t).2 rfl)
  | pagerHold v =>
    dsimp only [Cache.step] at h
    split_ifs at h; cases h
    exact .of_eq rfl (fun _ => rfl) (by simp)
  | pagerRele t v =>
    dsimp only [Cache.step] at h
    split_ifs at h; cases h
    exact Cache.pins_vnReleInactive (s := { s with paged := s.paged.erase v }) t v
  | outside v rCount rError rCred rDirty vPages =>
    dsimp only [Cache.step] at h
    split_ifs at h; cases h
    refine .of_eq rfl (fun _ => rfl) ?_
    by_cases hv : n = v
    · subst hv; simp [Cache.setNode]
    · simp [Cache.setNode, hv]
  | unmount mi =>
    cases h
    refine .of_eq rfl (fun m' => ?_) rfl
    by_cases hm' : m' = mi
    · subst hm'; simp [Cache.setMount]
    · simp [Cache.setMount, hm']
  | _ => dsimp only [Cache.step] at h; split_ifs at h; cases h; exact Cache.Pins.refl

end Step

/-! ## Any run -/

/-- **A reference pins a linked node.**  From a state of the invariant, a node a caller holds
and that is linked under a path in an index stays held and linked under that path along any
run in which no reference to it is released, no `fusefs_rmhash` is called on it, and no
`sn_rmhash_locked` runs on a node without `RHASHED` (that call's `avl_remove` moves tree links
the model does not follow): no recycling by `make_fusenode`, no destruction by
`fusefs_addfree` or `fusefs_node_reclaim`, and no drain by `fusefs_destroy_table` takes it. -/
theorem held_stays_linked : ∀ {s s' : Cache} {as : List Action} {n : Node} {m : Mount}
    {p : Path}, Inv s → s.run as = some s' → s'.rmhashStale = false → n ∈ s.held →
      s.Keyed m p n → (∀ t, .release t n ∉ as ∧ .rmhash t n ∉ as) → n ∈ s'.held ∧ s'.Keyed m p n
  | _, _, [], _, _, _, _, h, _, hn, hk, _ => by cases h; exact ⟨hn, hk⟩
  | _, _, a :: as, _, _, _, hs, h, hstale, hn, hk, has => by
    obtain ⟨s₁, h₁, hrest⟩ := Option.bind_eq_some.mp h
    have hp := hs.step_pins h₁ hn hk.1 fun t =>
      ⟨fun e => (has t).1 (e ▸ .head _), fun e => (has t).2 (e ▸ .head _)⟩
    exact held_stays_linked (hs.step h₁) hrest hstale (hp.1 hn) ⟨hp.2.1 _ hk.1, hp.2.2.trans hk.2⟩
      fun t => ⟨fun e => (has t).1 (.tail _ e), fun e => (has t).2 (.tail _ e)⟩

/-- While its caller holds node 0, linked under "a", the same thread creates "b" and calls
`fusefs_node_reclaim`. -/
def pinA : List Action :=
  [.findcreate 0 0 [] 0 [98] .fattr0, .run 0, .run 0, .run 0, .run 0, .reclaim 0, .run 0]

theorem held_stays_linked_pinA :
    Inv heldA ∧ 0 ∈ heldA.held ∧ heldA.Keyed 0 (findcreateRpath [] 0 [97]) 0 ∧
      ∃ s', heldA.run pinA = some s' ∧ s'.rmhashStale = false ∧ 0 ∈ s'.held ∧
        s'.Keyed 0 (findcreateRpath [] 0 [97]) 0 := by
  obtain ⟨-, hheld, -, -, hidx, hK, -⟩ := heldA_facts
  have hs := reachable_heldA.inv
  have hn : 0 ∈ heldA.held := by simp [hheld]
  have hk : heldA.Keyed 0 (findcreateRpath [] 0 [97]) 0 := ⟨by simp [hidx], hK⟩
  have hrun : heldA.run pinA = some ((heldA.run pinA).getD heldA) := rfl
  have hstale : ((heldA.run pinA).getD heldA).rmhashStale = false := by decide
  have has : ∀ t, .release t 0 ∉ pinA ∧ .rmhash t 0 ∉ pinA := fun t => by simp [pinA]
  exact ⟨hs, hn, hk, _, hrun, hstale, held_stays_linked hs hrun hstale hn hk has⟩

end FusefsNode
