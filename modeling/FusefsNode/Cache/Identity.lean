import FusefsNode.Cache.Pin
import FusefsNode.Cache.Finish

/-!
# A node in use keeps its identity

A caller's reference pins a linked node (`Pin.lean`).  Once its holder has unlinked it with
`fusefs_rmhash`, the node's path is no longer safe: `fusefs_addfree`, run by the thread that
dropped the last other reference before the holder took its own, tests `RHASHED` without a
lock, finds it clear and calls `sn_inactive`, which frees `n_rpath` while the holder still
holds the node (`held_keeps_identity_clearA`); `make_fusenode` does the same to a victim it
popped before the holder found it.

What a reference does guarantee: the node stays live and keeps its mount, and its path is
never replaced by another one, only cleared, and only once the node is unlinked
(`held_keeps_identity`).  No thread re-initialises a node a caller holds: `make_fusenode`
recycles a victim only when the count is its own alone, and links only a shell, which no
caller holds (`ShellsUnheld`).

## Strategy

* `ShellsUnheld` is an invariant on top of `Inv`: `runPc_shells` says what a step does to
  the shells and to the callers' references, and `ShellsUnheld.step` keeps it.
* `Cache.Keeps s s' n`: `n` stays held, of its mount, and keeps its path or has none.  It is
  transitive; `Inv.runPc_keeps` and `Inv.step_keeps` are the step lemmas, `Reachable.keeps`
  the induction over a run, and liveness comes from `Inv.refsLive` at its end.
-/

namespace FusefsNode

/-- No caller holds a shell that a thread has built and not linked. -/
def ShellsUnheld (s : Cache) : Prop :=
  ∀ (u : Tid) (pc : Pc) (mi : Mount) (n : Node), s.threads[u]? = some pc →
    pc.shell = some (mi, n) → n ∉ s.held

/-- From `s` to `s'`, the node `n` stays held if it was, keeps its mount, and keeps its path or
has none. -/
def Cache.Keeps (s s' : Cache) (n : Node) : Prop :=
  (n ∈ s.held → n ∈ s'.held) ∧ (s'.node n).nMount = (s.node n).nMount ∧
    ((s'.node n).nRpath = (s.node n).nRpath ∨ (s'.node n).nRpath = none)

theorem AddfreeCont.ret_shell (k : AddfreeCont) : k.ret.shell = none := by
  cases k with
  | destroyTable rlist => cases rlist <;> rfl
  | _ => rfl

theorem dtNext_shell (rlist : List Node) : (dtNext rlist).shell = none := by
  cases rlist <;> rfl

theorem HashfindCont.done_shell (k : HashfindCont) (mi : Mount) (np : Node) :
    (k.done mi np).shell = none := by
  cases k <;> rfl

/-! ## Shells -/

section Shells

variable {s s' : Cache} {u : Tid} {pc : Pc}

/-- **What a step does to the shells.**  The stepping thread's shell, if it has one after the
step, has no caller, and a caller's new reference is to an indexed node or to a node the
thread owned. -/
theorem runPc_shells (hs : Inv s) (hsh : ShellsUnheld s) (ht : s.threads[u]? = some pc)
    (h : s.runPc u pc = some s') :
    ∃ pc', s'.threads = s.threads.set u pc' ∧
      (∀ mi n, pc'.shell = some (mi, n) → n ∉ s'.held) ∧
      ∀ n ∈ s'.held, n ∈ s.held ∨ (∃ m, n ∈ (s.mount m).fmiHashAvl) ∨ n ∈ pc.tentative := by
  have hok := hs.pcs u pc ht
  have own : ∀ mi n, pc.shell = some (mi, n) → n ∉ s.held := fun mi n => hsh u pc mi n ht
  have found : ∀ mi v k, pc = .hfLock mi v k ∨ pc = .hfHold mi v k → ∀ n ∈ v :: s.held,
      n ∈ s.held ∨ (∃ m, n ∈ (s.mount m).fmiHashAvl) ∨ n ∈ pc.tentative := by
    rintro mi v k hpc n (_ | ⟨_, hn⟩)
    · exact .inr (.inl ⟨mi, hok.2.2.1 mi _ (by rcases hpc with rfl | rfl <;> rfl)⟩)
    · exact .inl hn
  cases pc with
  | hfFreef mi v k =>
    cases h
    exact ⟨_, rfl, fun mi n h => own mi n (by split_ifs at h <;> cases k <;> exact h),
      fun n hn => .inl hn⟩
  | hfLock mi v k =>
    dsimp only [Cache.runPc] at h
    split_ifs at h <;> cases h
    · exact ⟨_, rfl, by simp [HashfindCont.done_shell], found mi v k (.inl rfl)⟩
    · exact ⟨_, rfl, fun mi n h => own mi n (by cases k <;> exact h), fun n hn => .inl hn⟩
  | hfHold mi v k =>
    cases h
    exact ⟨_, rfl, by simp [HashfindCont.done_shell], found mi v k (.inr rfl)⟩
  | mkAlloc mi rpath =>
    cases h
    refine ⟨_, rfl, fun _ _ h => ?_, fun n hn => .inl hn⟩
    cases h
    exact hs.nextNode_not_held
  | mkReinit mi rpath v =>
    dsimp only [Cache.runPc] at h
    split_ifs at h with hgt <;> cases h
    · exact ⟨_, rfl, (fun _ _ h => by cases h), fun n hn => .inl hn⟩
    · refine ⟨_, rfl, fun _ _ h => ?_, fun n hn => .inl hn⟩
      cases h
      exact hs.not_held_of_alone ht (List.mem_singleton_self v) hgt
  | mkInsert mi rpath v =>
    dsimp only [Cache.runPc] at h
    (repeat' split at h) <;> cases h
    · refine ⟨_, rfl, fun _ _ h => ?_, fun n hn => .inl hn⟩
      cases h
      exact own mi v rfl
    · refine ⟨_, rfl, (fun _ _ h => by cases h), fun n hn => ?_⟩
      rcases List.mem_cons.mp hn with rfl | hn
      exacts [.inr (.inr (List.mem_singleton_self _)), .inl hn]
  | ctRead _ _ _ _ _ field =>
    cases field <;> cases h <;>
      exact ⟨_, rfl, (fun _ _ h => by split_ifs at h <;> cases h), fun n hn => .inl hn⟩
  | _ =>
    dsimp only [Cache.runPc] at h
    (repeat' split at h) <;> cases h <;>
      exact ⟨_, rfl, (fun _ _ h => by
        first
          | cases h
          | (rw [AddfreeCont.ret_shell] at h; cases h)
          | (rw [dtNext_shell] at h; cases h)),
        fun n hn => .inl hn⟩

/-- A step that gives no caller a new reference and puts no thread at a shell. -/
theorem ShellsUnheld.of_frame (hsh : ShellsUnheld s) (hheld : ∀ n ∈ s'.held, n ∈ s.held)
    (hthr : ∀ (w : Tid) (pw : Pc), s'.threads[w]? = some pw →
      pw.shell = none ∨ s.threads[w]? = some pw) :
    ShellsUnheld s' := fun w pw mi n hw hshw hn =>
  (hthr w pw hw).elim (fun h => by rw [h] at hshw; cases hshw)
    fun hw => hsh w pw mi n hw hshw (hheld n hn)

/-- Moving one thread to a point that is not a shell's. -/
theorem frame_setPc {X : Cache} (hX : X.threads = s.threads) (ht : s.threads[u]? = some pc)
    {pc' : Pc} (hq : pc'.shell = none) :
    ∀ (w : Tid) (pw : Pc), (X.setPc u pc').threads[w]? = some pw →
      pw.shell = none ∨ s.threads[w]? = some pw := by
  intro w pw hw
  rw [Cache.setPc, hX, getElem?_setPc ht] at hw
  split_ifs at hw
  · cases hw; exact .inl hq
  · exact .inr hw

/-- **No caller holds a shell**, along every step from a state of the invariant. -/
theorem ShellsUnheld.step (hs : Inv s) (hsh : ShellsUnheld s) {a : Action}
    (h : s.step a = some s') :
    ShellsUnheld s' := by
  cases a with
  | run u =>
    obtain ⟨pc, ht, h⟩ := Option.bind_eq_some.mp h
    obtain ⟨pc', hthr, hnew, hadd⟩ := runPc_shells hs hsh ht h
    intro w pw mi n hw hshw hn
    rw [hthr, getElem?_setPc ht] at hw
    split_ifs at hw with hwu
    · cases hw; exact hnew mi n hshw hn
    · have hnot : (s.node n).rHashed = false := ((hs.pcs w pw hw).2.1 mi n hshw).2.1
      rcases hadd n hn with hn | ⟨m, hm⟩ | hn
      · exact hsh w pw mi n hw hshw hn
      · exact hs.not_indexed hnot m hm
      · exact hs.tentative_disjoint ht hw (Ne.symm hwu) hn (Pc.shell_tentative hshw)
  | drain t v =>
    dsimp only [Cache.step] at h
    split at h <;> try cases h
    rename_i ht
    split_ifs at h; cases h
    unfold Cache.drainOne
    split_ifs
    exacts [hsh.of_frame (fun _ h => h) (frame_setPc rfl ht rfl),
      hsh.of_frame (fun _ h => h) (frame_setPc rfl ht rfl)]
  | release t v | pagerRele t v =>
    dsimp only [Cache.step] at h
    split_ifs at h with hc; cases h
    obtain ⟨pc, ht, -⟩ := idle_iff.mp hc.1
    unfold Cache.vnReleInactive
    split_ifs
    all_goals refine hsh.of_frame (fun _ h => ?_) ?_
    any_goals first | exact h | exact List.mem_of_mem_erase h
    exacts [fun _ _ hw => .inr hw, frame_setPc rfl ht rfl]
  | findcreate t | reclaim t | destroyTable t | checkTable t =>
    dsimp only [Cache.step] at h
    split_ifs at h with hi; cases h
    obtain ⟨pc, ht, -⟩ := idle_iff.mp hi
    exact hsh.of_frame (fun _ h => h) (frame_setPc rfl ht rfl)
  | _ =>
    dsimp only [Cache.step] at h
    (try split_ifs at h); cases h; exact hsh.of_frame (fun _ h => h) fun _ _ hw => .inr hw

theorem Reachable.shellsUnheld (h : Reachable s) : ShellsUnheld s := by
  induction h with
  | init nfusenode checkTableDebug n =>
    intro u pc mi v hu
    simp [Cache.init, List.getElem?_replicate] at hu
    cases hu.2; nofun
  | step a hr h ih => exact ih.step hr.inv h

end Shells

/-! ## One step keeps a held node's identity -/

section Keeps

variable {s s' s'' : Cache} {u : Tid} {pc : Pc} {n : Node}

theorem Cache.Keeps.trans (h₁ : s.Keeps s' n) (h₂ : s'.Keeps s'' n) : s.Keeps s'' n := by
  refine ⟨h₂.1 ∘ h₁.1, h₂.2.1.trans h₁.2.1, ?_⟩
  rcases h₂.2.2 with hp | hp
  · rw [hp]; exact h₁.2.2
  · exact .inr hp

/-- An update that keeps the callers' references and the node's mount and path. -/
theorem Cache.Keeps.of_eq (hh : n ∈ s.held → n ∈ s'.held)
    (hi : (s'.node n).nMount = (s.node n).nMount ∧ (s'.node n).nRpath = (s.node n).nRpath) :
    s.Keeps s' n := ⟨hh, hi.1, .inl hi.2⟩

theorem Cache.Keeps.refl : s.Keeps s n := .of_eq id ⟨rfl, rfl⟩

theorem Cache.Keeps.addHeld (h : s.Keeps s' n) (v : Node) : s.Keeps (s'.addHeld v) n :=
  ⟨fun hn => List.mem_cons_of_mem v (h.1 hn), h.2⟩

/-- **A thread's step keeps a held node's identity**: `make_fusenode` re-initialises and links
only nodes no caller holds, and `sn_inactive` only clears the path. -/
theorem Inv.runPc_keeps (hs : Inv s) (hsh : ShellsUnheld s) (ht : s.threads[u]? = some pc)
    (h : s.runPc u pc = some s') (hn : n ∈ s.held) : s.Keeps s' n := by
  have alone : ∀ v ∈ pc.tentative, ¬ 1 < (s.node v).vCount → v ≠ n :=
    fun v hv hle he => hs.not_held_of_alone ht hv hle (he ▸ hn)
  cases pc with
  | hfLock mi v k =>
    dsimp only [Cache.runPc] at h
    split_ifs at h <;> cases h
    exacts [Cache.Keeps.refl.addHeld v, Cache.Keeps.refl]
  | hfHold mi v k =>
    cases h
    have hk : s.Keeps (s.vnHold v) n := .of_eq id (by simp)
    exact hk.addHeld v
  | mkAlloc mi rpath =>
    cases h
    have hfresh : s.nextNode ≠ n := fun he => hs.nextNode_not_held (he ▸ hn)
    exact .of_eq id (by simp [hfresh.symm])
  | mkUnhash mi rpath v | afUnhash v _ | rcUnhash v | afRecheck v _ =>
    dsimp only [Cache.runPc] at h
    split_ifs at h <;> cases h <;> exact .of_eq id (by simp)
  | mkInactive mi rpath v | afInactive v _ =>
    cases h
    by_cases hv : v = n
    · subst hv; exact ⟨id, by simp, .inr (by simp)⟩
    · exact .of_eq id (by simp [Ne.symm hv])
  | mkReinit mi rpath v =>
    dsimp only [Cache.runPc] at h
    split_ifs at h with hgt <;> cases h
    exacts [.of_eq id (by simp),
      .of_eq id (by simp [(alone v (by simp [Pc.tentative]) hgt).symm])]
  | mkInsert mi rpath v =>
    dsimp only [Cache.runPc] at h
    (repeat' split at h) <;> cases h
    · exact Cache.Keeps.refl
    · have hv : v ≠ n := fun he => hsh u _ mi v ht rfl (he ▸ hn)
      have hk : s.Keeps (s.snAddhashLocked v rpath) n := .of_eq id (by simp [hv.symm])
      exact hk.addHeld v
  | afPool v _ =>
    dsimp only [Cache.runPc] at h
    split_ifs at h <;> cases h
    exacts [.of_eq id (by simp), Cache.Keeps.refl]
  | ctRead _ _ _ _ _ field => cases field <;> cases h <;> exact Cache.Keeps.refl
  | _ => dsimp only [Cache.runPc] at h; (repeat' split at h) <;> cases h <;> exact Cache.Keeps.refl

/-- **Every action keeps a held node's identity**, but the release of a reference to it. -/
theorem Inv.step_keeps {a : Action} (hs : Inv s) (hsh : ShellsUnheld s) (h : s.step a = some s')
    (hn : n ∈ s.held) (ha : ∀ t, a ≠ .release t n) : s.Keeps s' n := by
  cases a with
  | run t =>
    obtain ⟨pc, ht, h⟩ := Option.bind_eq_some.mp h
    exact hs.runPc_keeps hsh ht h hn
  | drain t v =>
    dsimp only [Cache.step] at h
    split at h <;> try cases h
    split_ifs at h; cases h
    unfold Cache.drainOne
    split_ifs
    · refine .of_eq id ?_
      by_cases hv : n = v
      · subst hv; simp [Cache.setNode]
      · simp [Cache.setNode, Cache.setMount, hv]
    · exact Cache.Keeps.refl
  | release t v | pagerRele t v =>
    dsimp only [Cache.step] at h
    split_ifs at h; cases h
    unfold Cache.vnReleInactive
    split_ifs
    all_goals refine .of_eq (fun hn => ?_) (by simp)
    all_goals first | exact hn | exact (List.mem_erase_of_ne (by rintro rfl; exact ha t rfl)).mpr hn
  | rmhash t v | pagerHold v =>
    dsimp only [Cache.step] at h
    split_ifs at h; cases h
    exact .of_eq id (by simp)
  | outside v rCount rError rCred rDirty vPages =>
    dsimp only [Cache.step] at h
    split_ifs at h; cases h
    refine .of_eq id ?_
    by_cases hv : n = v
    · subst hv; simp [Cache.setNode]
    · simp [Cache.setNode, hv]
  | unmount mi => cases h; exact Cache.Keeps.refl
  | _ => dsimp only [Cache.step] at h; split_ifs at h; cases h; exact Cache.Keeps.refl

theorem Reachable.keeps : ∀ {s s' : Cache} {as : List Action}, Reachable s →
    s.run as = some s' → n ∈ s.held → (∀ t, .release t n ∉ as) → s.Keeps s' n
  | _, _, [], _, h, _, _ => by cases h; exact Cache.Keeps.refl
  | _, _, a :: as, hr, h, hn, has => by
    obtain ⟨s₁, h₁, h⟩ := Option.bind_eq_some.mp h
    have hk := hr.inv.step_keeps hr.shellsUnheld h₁ hn fun t he =>
      has t (he ▸ List.mem_cons_self _ _)
    exact hk.trans
      ((hr.step a h₁).keeps h (hk.1 hn) fun t ht => has t (List.mem_cons_of_mem _ ht))

end Keeps

/-! ## Any run -/

/-- **A reference keeps a node's identity.**  Along any run from a reachable state in which
no reference to it is released, a node a caller holds stays held and live and keeps its mount,
and its path is never replaced by another one: it is only ever cleared. -/
theorem held_keeps_identity {s s' : Cache} {as : List Action} {n : Node} (hr : Reachable s)
    (hrun : s.run as = some s') (hn : n ∈ s.held) (has : ∀ t, .release t n ∉ as) :
    n ∈ s'.held ∧ (s'.node n).live ∧ (s'.node n).nMount = (s.node n).nMount ∧
      ((s'.node n).nRpath = (s.node n).nRpath ∨ (s'.node n).nRpath = none) := by
  obtain ⟨hn', hm, hp⟩ := hr.keeps hrun hn has
  exact ⟨hn' hn, (hr.run hrun).inv.refsLive n (by simp [Cache.refs, hn' hn]), hm, hp⟩

/-- `fusefs_addfree` clears the path of a node a caller holds: thread 0 looks up "a" and
drops its reference; before its `fusefs_addfree` runs, thread 1 finds the node, takes a
reference and unlinks it; thread 0 then finds `RHASHED` clear and calls `sn_inactive`. -/
def clearA : List Action :=
  [.findcreate 0 0 [] 0 [97] .fattr0, .run 0, .run 0, .run 0, .run 0, .release 0 0,
    .findcreate 1 0 [] 0 [97] .fattr0, .run 1, .run 1, .run 1, .rmhash 1 0]

/-- The state `clearA` reaches: node 0 held by thread 1 and unlinked, thread 0 inside
`fusefs_addfree`. -/
def unlinkedA : Cache := ((Cache.init 5 false 2).run clearA).getD (Cache.init 5 false 2)

theorem held_keeps_identity_clearA :
    (unlinkedA.node 0).nRpath = some [97] ∧
      ∃ s', unlinkedA.run (List.replicate 4 (.run 0)) = some s' ∧ (s'.node 0).nRpath = none ∧
        0 ∈ s'.held ∧ (s'.node 0).live ∧ (s'.node 0).nMount = (unlinkedA.node 0).nMount ∧
          ((s'.node 0).nRpath = (unlinkedA.node 0).nRpath ∨ (s'.node 0).nRpath = none) := by
  have hr : Reachable unlinkedA :=
    (Reachable.init 5 false 2).run
      (show (Cache.init 5 false 2).run clearA = some unlinkedA from rfl)
  have hrun : unlinkedA.run (List.replicate 4 (.run 0)) =
      some ((unlinkedA.run (List.replicate 4 (.run 0))).getD unlinkedA) := rfl
  exact ⟨rfl, _, hrun, rfl, held_keeps_identity hr hrun (by decide) fun t => by simp⟩

end FusefsNode
