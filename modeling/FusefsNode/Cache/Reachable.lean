import FusefsNode.Cache.Preserve

/-!
# Every reachable state satisfies the invariant

`Inv.runPc` takes each program counter in turn and names the transition lemma of
`FusefsNode.Cache.Preserve` that covers its step; `Inv.step` does the same for the steps that
are not a thread's next statement.  `Reachable.inv` is then an induction over the
interleaving.

The lemmas of the first section say what `PcOk` asks of each kind of program counter, so that
the cases below build it from what the thread knew before the step.
-/

namespace FusefsNode

/-! ## What a thread knows at each program counter -/

section Knowledge

variable {s : Cache}

/-- A program counter that knows nothing of the shared state. -/
theorem PcOk.of_nil {pc : Pc} (hu : pc.unhashed = []) (hsh : pc.shell = none) (hfo : pc.found = none)
    (hd : ∀ mi rest rlist, pc ≠ .dtDrain mi rest rlist) : PcOk s pc :=
  ⟨by simp [hu], by simp [hsh], by simp [hfo], fun _ _ _ h => by simp [h, Pc.found] at hfo,
    fun mi rest rlist h => absurd h (hd mi rest rlist)⟩

/-- A program counter that knows only that its nodes are unlinked. -/
theorem PcOk.of_unhashed {pc : Pc} (hu : ∀ n ∈ pc.unhashed, (s.node n).rHashed = false)
    (hsh : pc.shell = none) (hfo : pc.found = none)
    (hd : ∀ mi rest rlist, pc ≠ .dtDrain mi rest rlist) : PcOk s pc :=
  ⟨hu, by simp [hsh], by simp [hfo], fun _ _ _ h => by simp [h, Pc.found] at hfo,
    fun mi rest rlist h => absurd h (hd mi rest rlist)⟩

variable {mi np : Node} {k : HashfindCont}

theorem pcOk_hfFreef : PcOk s (.hfFreef mi np k) ↔
    (∀ n, k = .lostRace n → Shell s mi n) ∧ np ∈ (s.mount mi).fmiHashAvl := by
  cases k <;> simp [PcOk, Pc.unhashed, Pc.shell, Pc.found]

theorem pcOk_hfLock : PcOk s (.hfLock mi np k) ↔
    (∀ n, k = .lostRace n → Shell s mi n) ∧ np ∈ (s.mount mi).fmiHashAvl := by
  cases k <;> simp [PcOk, Pc.unhashed, Pc.shell, Pc.found]

theorem pcOk_hfHold : PcOk s (.hfHold mi np k) ↔
    ((∀ n, k = .lostRace n → Shell s mi n) ∧ np ∈ (s.mount mi).fmiHashAvl) ∧
      np ∉ s.fusefreelist := by
  cases k <;> simp [PcOk, Pc.unhashed, Pc.shell, Pc.found, and_assoc]

theorem pcOk_mkInsert {rpath : Path} : PcOk s (.mkInsert mi rpath np) ↔ Shell s mi np := by
  simp [PcOk, Pc.unhashed, Pc.shell, Pc.found]

theorem pcOk_dtDrain {rest rlist : List Node} : PcOk s (.dtDrain mi rest rlist) ↔
    (∀ n ∈ rlist, (s.node n).rHashed = false) ∧ rest.Sublist (s.mount mi).fmiHashAvl := by
  simp [PcOk, Pc.unhashed, Pc.shell, Pc.found]

theorem HashfindCont.pcOk_done : PcOk s (k.done mi np) := by
  cases k <;> simp [PcOk, HashfindCont.done, Pc.unhashed, Pc.shell, Pc.found, AddfreeCont.tentative]

theorem HashfindCont.done_tentative : (k.done mi np).tentative = (Pc.hfLock mi np k).tentative := by
  cases k <;> rfl

theorem HashfindCont.done_lock : (k.done mi np).lock = none := by
  cases k <;> rfl

theorem Inv.vVfsp_of_hashed (hs : Inv s) {n : Node} (hh : (s.node n).rHashed) :
    (s.node n).vVfsp = (s.node n).nMount :=
  (hs.linked _ n (hs.hashed n hh)).2.2.2.1

theorem snInactive_rHashed (n m : Node) : ((s.snInactive n).node m).rHashed = (s.node m).rHashed := by
  by_cases h : m = n
  · subst h; simp
  · simp [h]

end Knowledge

/-! ## One step -/

section Step

variable {s s' : Cache} {t : Tid} {pc : Pc}

theorem Inv.runPc (hs : Inv s) (ht : s.threads[t]? = some pc) (h : s.runPc t pc = some s') :
    Inv s' := by
  have hok := hs.pcs t pc ht
  cases pc with
  | idle | returned | checked => simp [Cache.runPc] at h
  | fcEnter mi rpath create =>
    simp only [Cache.runPc] at h
    split_ifs at h with hw <;> split at h <;> cases h
    all_goals first
      | exact inv_setPc hs ht rfl (.inr (.inr (.inr ⟨mi, rfl, hw⟩)))
          (pcOk_hfFreef.mpr ⟨nofun, (avlFind_some ‹_›).1⟩)
      | exact inv_setPc hs ht rfl (.inl rfl) (.of_nil rfl rfl rfl fun _ _ _ => nofun)
  | hfFreef mi np k =>
    simp only [Cache.runPc, Option.some.injEq] at h; subst h
    split_ifs with hfl
    · exact inv_setPc hs ht (by cases k <;> rfl) (.inr (.inl rfl)) (pcOk_hfLock.mpr (pcOk_hfFreef.mp hok))
    · exact inv_setPc hs ht (by cases k <;> rfl) (.inr (.inl rfl))
        (pcOk_hfHold.mpr ⟨pcOk_hfFreef.mp hok, hfl⟩)
  | hfLock mi np k =>
    simp only [Cache.runPc] at h
    split_ifs at h with hfl <;> cases h
    · exact inv_takeHeld hs ht hfl k.done_tentative (.inl k.done_lock) k.pcOk_done
    · exact inv_setPc hs ht (by cases k <;> rfl) (.inr (.inl rfl))
        (pcOk_hfHold.mpr ⟨pcOk_hfLock.mp hok, hfl⟩)
  | hfHold mi np k =>
    simp only [Cache.runPc] at h; cases h
    obtain ⟨⟨-, hidx⟩, hfl⟩ := pcOk_hfHold.mp hok
    exact inv_hold hs ht hidx hfl (by cases k <;> rfl) (.inl k.done_lock) k.pcOk_done
  | mkFree mi rpath =>
    simp only [Cache.runPc] at h
    split at h
    · rename_i np rest hfl
      split_ifs at h <;> cases h
      · exact inv_pop hs ht (by simp [hfl]) rfl (.inl rfl) (.of_nil rfl rfl rfl fun _ _ _ => nofun)
      · exact inv_setPc hs ht rfl (.inl rfl) (.of_nil rfl rfl rfl fun _ _ _ => nofun)
    · cases h; exact inv_setPc hs ht rfl (.inl rfl) (.of_nil rfl rfl rfl fun _ _ _ => nofun)
  | mkAlloc mi rpath =>
    simp only [Cache.runPc] at h; cases h
    exact inv_alloc hs ht
  | mkFlags mi rpath np =>
    simp only [Cache.runPc] at h; cases h
    split_ifs with hh
    · exact inv_setPc hs ht rfl (.inl rfl) (.of_nil rfl rfl rfl fun _ _ _ => nofun)
    · exact inv_setPc hs ht rfl (.inl rfl)
        (.of_unhashed (by simpa [Pc.unhashed] using hh) rfl rfl fun _ _ _ => nofun)
  | mkUnhash mi rpath np =>
    simp only [Cache.runPc] at h
    split_ifs at h with hf hgt <;> cases h
    · exact inv_drop hs ht rfl hgt (.inl rfl) (.of_nil rfl rfl rfl fun _ _ _ => nofun)
    · exact inv_setPc (inv_snRmhashLocked_of_lockFree hs fun _ => hf) ht rfl (.inl rfl)
        (.of_unhashed (by simp [Pc.unhashed]) rfl rfl fun _ _ _ => nofun)
  | mkInactive mi rpath np =>
    simp only [Cache.runPc] at h; cases h
    have hun : (s.node np).rHashed = false := hok.1 np (List.mem_singleton_self _)
    exact inv_setPc (inv_snInactive hs hun) ht rfl (.inl rfl)
      (.of_unhashed (by simpa [Pc.unhashed, snInactive_rHashed] using hun) rfl rfl fun _ _ _ => nofun)
  | mkReinit mi rpath np =>
    simp only [Cache.runPc] at h
    split_ifs at h with hgt <;> cases h
    · exact inv_drop hs ht rfl hgt (.inl rfl) (.of_nil rfl rfl rfl fun _ _ _ => nofun)
    · exact inv_setPc (inv_reinit hs ht hgt) ht rfl (.inl rfl) (pcOk_mkInsert.mpr (by simp [Shell]))
  | mkInsert mi rpath np =>
    simp only [Cache.runPc] at h
    split_ifs at h with hf
    split at h <;> cases h
    · rename_i tnp hfind
      exact inv_setPc hs ht rfl (.inr (.inr (.inl ⟨mi, rfl, hf⟩)))
        (pcOk_hfFreef.mpr ⟨fun n hn => by cases hn; exact pcOk_mkInsert.mp hok, (avlFind_some hfind).1⟩)
    · rename_i hfind
      exact inv_insert hs ht hf hfind
  | lostRet mi tnp =>
    simp only [Cache.runPc] at h
    split_ifs at h; cases h
    exact inv_setPc hs ht rfl (.inl rfl) (.of_nil rfl rfl rfl fun _ _ _ => nofun)
  | afCount np k =>
    simp only [Cache.runPc] at h; cases h
    split_ifs <;> exact inv_setPc hs ht rfl (.inl rfl) (.of_unhashed hok.1 rfl rfl fun _ _ _ => nofun)
  | afHashed np k =>
    simp only [Cache.runPc] at h; cases h
    split_ifs <;> exact inv_setPc hs ht rfl (.inl rfl) (.of_unhashed hok.1 rfl rfl fun _ _ _ => nofun)
  | afOthers np k =>
    simp only [Cache.runPc] at h; cases h
    split_ifs <;> exact inv_setPc hs ht rfl (.inl rfl) (.of_unhashed hok.1 rfl rfl fun _ _ _ => nofun)
  | afDestroy np k =>
    simp only [Cache.runPc] at h; cases h
    split_ifs with hh
    · exact inv_setPc hs ht rfl (.inl rfl) (.of_unhashed hok.1 rfl rfl fun _ _ _ => nofun)
    · exact inv_setPc hs ht rfl (.inl rfl)
        (.of_unhashed (List.forall_mem_cons.mpr ⟨by simpa using hh, hok.1⟩) rfl rfl fun _ _ _ => nofun)
  | afUnhash np k =>
    simp only [Cache.runPc] at h
    split_ifs at h with hf hgt <;> cases h
    · exact inv_drop hs ht (by rw [k.ret_tentative]; rfl) hgt (.inl k.ret_lock) (PcOk.ret hok.1)
    · have hlf : (s.node np).rHashed → s.lockFree (s.node np).nMount := fun hh =>
        hs.vVfsp_of_hashed hh ▸ hf
      exact inv_setPc (inv_snRmhashLocked_of_lockFree hs hlf) ht rfl (.inl rfl)
        (.of_unhashed (List.forall_mem_cons.mpr ⟨by simp, fun n hn => by simp [hok.1 n hn]⟩) rfl rfl
          fun _ _ _ => nofun)
  | afInactive np k =>
    simp only [Cache.runPc] at h; cases h
    exact inv_setPc (inv_snInactive hs (hok.1 np (List.mem_cons_self _ _))) ht rfl (.inl rfl)
      (.of_unhashed (fun n hn => (snInactive_rHashed np n).trans (hok.1 n hn)) rfl rfl fun _ _ _ => nofun)
  | afRecheck np k =>
    simp only [Cache.runPc] at h
    split_ifs at h with hgt <;> cases h
    · exact inv_drop hs ht (by rw [k.ret_tentative]; rfl) hgt (.inl k.ret_lock)
        (PcOk.ret fun n hn => hok.1 n (List.mem_cons_of_mem _ hn))
    · exact inv_destroy hs ht hgt
  | afPool np k =>
    simp only [Cache.runPc] at h
    split_ifs at h with hf hgt <;> cases h
    · exact inv_drop hs ht (by rw [k.ret_tentative]; rfl) hgt (.inl k.ret_lock) (PcOk.ret hok.1)
    · exact inv_pool hs ht hf hgt
  | rcLoop =>
    simp only [Cache.runPc] at h
    split at h <;> cases h
    · rename_i np rest hfl
      exact inv_pop hs ht (by simp [hfl]) rfl (.inl rfl) (.of_nil rfl rfl rfl fun _ _ _ => nofun)
    · exact inv_setPc hs ht rfl (.inl rfl) (.of_nil rfl rfl rfl fun _ _ _ => nofun)
  | rcFlags np =>
    simp only [Cache.runPc] at h; cases h
    split_ifs <;> exact inv_setPc hs ht rfl (.inl rfl) (.of_nil rfl rfl rfl fun _ _ _ => nofun)
  | rcUnhash np =>
    simp only [Cache.runPc] at h
    split_ifs at h with hf hgt <;> cases h
    · exact inv_drop hs ht rfl hgt (.inl rfl) (.of_nil rfl rfl rfl fun _ _ _ => nofun)
    · exact inv_setPc (inv_snRmhashLocked_of_lockFree hs fun _ => hf) ht rfl (.inl rfl)
        (.of_nil rfl rfl rfl fun _ _ _ => nofun)
  | dtEnter mi =>
    simp only [Cache.runPc] at h
    split_ifs at h with hf; cases h
    exact inv_setPc hs ht rfl (.inr (.inr (.inl ⟨mi, rfl, hf⟩)))
      (pcOk_dtDrain.mpr ⟨nofun, List.Sublist.refl _⟩)
  | dtDrain mi rest rlist =>
    simp only [Cache.runPc] at h
    split_ifs at h; cases h
    exact inv_setPc hs ht (dtNext_tentative rlist) (.inl (AddfreeCont.destroyTable rlist).ret_lock)
      (PcOk.ret (k := .destroyTable rlist) (pcOk_dtDrain.mp hok).1)
  | ctEnter mi rtnp =>
    simp only [Cache.runPc] at h
    split_ifs at h with hw; cases h
    exact inv_setPc hs ht rfl (.inr (.inr (.inr ⟨mi, rfl, hw⟩))) (.of_nil rfl rfl rfl fun _ _ _ => nofun)
  | ctWalk mi rtnp rest busycnt =>
    simp only [Cache.runPc] at h
    split at h <;> cases h
    · exact inv_setPc hs ht rfl (.inl rfl) (.of_nil rfl rfl rfl fun _ _ _ => nofun)
    · split_ifs <;> exact inv_setPc hs ht rfl (.inr (.inl rfl)) (.of_nil rfl rfl rfl fun _ _ _ => nofun)
  | ctRead mi rtnp np rest busycnt field =>
    cases field <;> simp only [Cache.runPc] at h <;> cases h
    · exact inv_setPc hs ht rfl (.inr (.inl rfl)) (.of_nil rfl rfl rfl fun _ _ _ => nofun)
    · exact inv_setPc hs ht rfl (.inr (.inl rfl)) (.of_nil rfl rfl rfl fun _ _ _ => nofun)
    · split_ifs <;> first
        | exact inv_setPc hs ht rfl (.inl rfl) (.of_nil rfl rfl rfl fun _ _ _ => nofun)
        | exact inv_setPc hs ht rfl (.inr (.inl rfl)) (.of_nil rfl rfl rfl fun _ _ _ => nofun)

/-- A caller entering the file from an idle thread. -/
theorem inv_enter (hs : Inv s) (hidle : s.idle t) {pc' : Pc} (htent : pc'.tentative = [])
    (hlock : pc'.lock = none) (hok : PcOk s pc') : Inv (s.setPc t pc') := by
  obtain ⟨pc, ht, hpc⟩ := idle_iff.mp hidle
  exact inv_setPc hs ht (htent.trans (Pc.isIdle_tentative hpc).1.symm) (.inl hlock) hok

theorem Inv.step (hs : Inv s) {a : Action} (h : s.step a = some s') : Inv s' := by
  cases a with
  | run t =>
    obtain ⟨pc, ht, h⟩ := Option.bind_eq_some.mp h
    exact hs.runPc ht h
  | drain t np =>
    simp only [Cache.step] at h
    split at h
    · rename_i mi rest rlist ht
      split_ifs at h with hnp; cases h
      by_cases hfl : np ∈ s.fusefreelist
      · exact inv_drain hs ht hnp hfl
      · have hok := pcOk_dtDrain.mp (hs.pcs t _ ht)
        rw [s.drainOne_of_not_mem hfl]
        exact inv_setPc hs ht rfl (.inr (.inl rfl))
          (pcOk_dtDrain.mpr ⟨hok.1, (List.erase_sublist _ _).trans hok.2⟩)
    · cases h
  | findcreate t mi dirnm sep name fap =>
    simp only [Cache.step] at h
    split_ifs at h with hidle; cases h
    exact inv_enter hs hidle rfl rfl (.of_nil rfl rfl rfl fun _ _ _ => nofun)
  | release t np =>
    simp only [Cache.step] at h
    split_ifs at h with hg; cases h
    exact inv_vnReleInactive hs
      ((List.perm_append_singleton _ _).trans ((List.perm_cons_erase hg.2).symm.append_right _))
      (fun n hn => List.mem_of_mem_erase hn) hg.1
  | rmhash t np =>
    simp only [Cache.step] at h
    split_ifs at h with hg; cases h
    exact inv_snRmhashLocked_of_lockFree hs fun _ => hg.2.2.2
  | prune t top =>
    simp only [Cache.step] at h
    split_ifs at h; cases h
    exact hs
  | reclaim t =>
    simp only [Cache.step] at h
    split_ifs at h with hidle; cases h
    exact inv_enter hs hidle rfl rfl (.of_nil rfl rfl rfl fun _ _ _ => nofun)
  | destroyTable t mi =>
    simp only [Cache.step] at h
    split_ifs at h with hidle; cases h
    exact inv_enter hs hidle rfl rfl (.of_nil rfl rfl rfl fun _ _ _ => nofun)
  | checkTable t mi rtnp =>
    simp only [Cache.step] at h
    split_ifs at h with hidle; cases h
    exact inv_enter hs hidle rfl rfl (.of_nil rfl rfl rfl fun _ _ _ => nofun)
  | pagerHold np =>
    simp only [Cache.step] at h
    split_ifs at h with hg; cases h
    exact inv_pagerHold hs hg.1
  | pagerRele t np =>
    simp only [Cache.step] at h
    split_ifs at h with hg; cases h
    refine inv_vnReleInactive hs ?_ (fun _ hn => hn) hg.1
    rw [List.append_assoc]
    exact ((List.perm_append_singleton _ _).trans (List.perm_cons_erase hg.2).symm).append_left _
  | outside np rCount rError rCred rDirty vPages =>
    simp only [Cache.step] at h
    split_ifs at h; cases h
    exact inv_outside hs np rCount rError rCred rDirty vPages
  | unmount mi =>
    cases h
    exact inv_unmount hs mi

end Step

/-! ## Reachable states -/

/-- Every reachable state satisfies the invariant. -/
theorem Reachable.inv {s : Cache} (h : Reachable s) : Inv s := by
  induction h with
  | init nfusenode checkTableDebug n => exact inv_init nfusenode checkTableDebug n
  | step _ _ hstep ih => exact ih.step hstep

/-- A schedule run from a reachable state ends in a reachable state. -/
theorem Reachable.run {s s' : Cache} (h : Reachable s) :
    ∀ {as : List Action}, s.run as = some s' → Reachable s'
  | [], hrun => by cases hrun; exact h
  | a :: as, hrun => by
    obtain ⟨s₁, h₁, hrun⟩ := Option.bind_eq_some.mp hrun
    exact (Reachable.step a h h₁).run hrun

/-- What a decidable test finds in the state a schedule reaches from `fusefs_subrinit` holds of
some reachable state. -/
theorem exists_reachable_of_run {P : Cache → Prop} [DecidablePred P] (nfusenode : ℕ)
    (checkTableDebug : Bool) (n : ℕ) (as : List Action)
    (h : ((Cache.init nfusenode checkTableDebug n).run as).any fun s => decide (P s)) :
    ∃ s, Reachable s ∧ P s := by
  cases hrun : (Cache.init nfusenode checkTableDebug n).run as with
  | none => simp [hrun] at h
  | some s => exact ⟨s, (Reachable.init _ _ _).run hrun, by simpa [hrun] using h⟩

end FusefsNode
