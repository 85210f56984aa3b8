import FusefsNode.Cache.Unmount

/-!
# Every call finishes when run alone

A thread inside a function of the file, from any point of it, gets out of the file if it runs
alone from there: when no other thread holds an index lock, and no node has an `r_count`
(`call_finishes_alone`).  The second condition is needed only by `fusefs_node_reclaim`, whose
loop re-pools forever a node that code outside the file holds (`Teardown.lean`).  Together with
the deadlock freedom of the index locks (`Progress.lean`) this is the file's liveness: no state
is stuck, and a thread that the others leave alone finishes its call.

Each function has its lemma, and the one for `fusefs_addfree` hands over to its caller's:

```text
fusefs_node_findcreate, make_fusenode, sn_hashfind   Unlocked.run (the goto-start measure)
fusefs_addfree, any caller                           Unlocked.addfree_run, at most 7 steps
fusefs_node_reclaim                                  Unlocked.reclaim_run
fusefs_destroy_table                                 finishes_dtDrain, finishes_dtNext
fusefs_check_table                                   finishes_ctWalk, finishes_ctRead
```
-/

namespace FusefsNode

/-- Thread `t`, taking its own steps and handed nodes by `avl_destroy_nodes`, gets from `s`
out of the file. -/
def Cache.Finishes (s : Cache) (t : Tid) : Prop :=
  ∃ as s' pc, (∀ a ∈ as, a = .run t ∨ ∃ np, a = .drain t np) ∧ s.run as = some s' ∧
    s'.threads[t]? = some pc ∧ pc.isIdle

/-- Where `fusefs_addfree` returns to, at a point of it. -/
def Pc.addfreeCont : Pc → Option AddfreeCont
  | .afCount _ k | .afHashed _ k | .afOthers _ k | .afDestroy _ k | .afUnhash _ k
  | .afInactive _ k | .afRecheck _ k | .afPool _ k => some k
  | _ => none

section Finish

variable {s s₁ : Cache} {t : Tid} {pc : Pc}

/-! ## Runs out of the file -/

namespace Cache.Finishes

theorem of_idle (ht : s.threads[t]? = some pc) (hi : pc.isIdle) : s.Finishes t :=
  ⟨[], s, pc, nofun, rfl, ht, hi⟩

theorem of_run {as : List Action} (h : s.run as = some s₁)
    (has : ∀ a ∈ as, a = .run t ∨ ∃ np, a = .drain t np) (hf : s₁.Finishes t) : s.Finishes t := by
  obtain ⟨bs, s', pc, hbs, h', ht, hi⟩ := hf
  exact ⟨as ++ bs, s', pc, fun a ha => (List.mem_append.mp ha).elim (has a) (hbs a),
    by rw [Cache.run_append, h, Option.some_bind, h'], ht, hi⟩

theorem of_runs {n : ℕ} (h : s.run (List.replicate n (.run t)) = some s₁) (hf : s₁.Finishes t) :
    s.Finishes t :=
  of_run h (fun _ ha => .inl (List.eq_of_mem_replicate ha)) hf

/-- A step of the thread's own, then out of the file. -/
theorem of_step {pc₁ : Pc} {X : Cache} (ht : s.threads[t]? = some pc)
    (h : s.runPc t pc = some (X.setPc t pc₁)) (hf : (X.setPc t pc₁).Finishes t) : s.Finishes t :=
  of_runs (n := 1) (by rw [List.replicate_one, Cache.run, Cache.step_run ht, h]; rfl) hf

end Cache.Finishes

theorem solo_run {s' : Cache} : ∀ {fuel s}, Cache.solo t fuel s = some s' →
    ∃ n, s.run (List.replicate n (.run t)) = some s'
  | 0, _, h => by cases h
  | fuel + 1, s, h => by
    simp only [Cache.solo] at h
    split at h
    · cases h; exact ⟨0, rfl⟩
    · obtain ⟨s₁, h₁, h⟩ := Option.bind_eq_some.mp h
      obtain ⟨n, hn⟩ := solo_run h
      exact ⟨n + 1, by rw [List.replicate_succ, Cache.run, h₁, Option.some_bind, hn]⟩

theorem Cache.setPc_eq_self (ht : s.threads[t]? = some pc) : s.setPc t pc = s := by
  have hset : s.threads.set t pc = s.threads := List.ext_getElem? fun u => by
    rw [getElem?_setPc ht]
    split_ifs with h
    exacts [h ▸ ht.symm, rfl]
  simp only [Cache.setPc, hset]

/-- Every point of `make_fusenode` has a record of the freelist at its last `start`. -/
theorem Pc.exists_popped (pc : Pc) (l : List Node) : ∃ a, pc.Popped a l := by
  cases pc with
  | mkFree => exact ⟨l, rfl⟩
  | fcEnter _ _ c => cases c; exacts [⟨l, trivial⟩, ⟨0 :: l, List.cons_ne_nil _ _, rfl⟩]
  | mkFlags | mkUnhash | mkInactive | mkReinit => exact ⟨0 :: l, List.cons_ne_nil _ _, rfl⟩
  | _ => exact ⟨l, trivial⟩

/-! ## `fusefs_addfree` -/

/-- **The step lemma of `fusefs_addfree`.**  With no other lock holder, a point of
`fusefs_addfree` moves down `Pc.makeRank` or returns to its caller, and touches no
`r_count`. -/
theorem Unlocked.addfree_step {k : AddfreeCont} (hu : Unlocked s t) (ht : s.threads[t]? = some pc)
    (hk : pc.addfreeCont = some k) :
    ∃ (X : Cache) (pc₁ : Pc), s.runPc t pc = some (X.setPc t pc₁) ∧ X.threads = s.threads ∧
      (∀ n, (X.node n).rCount = (s.node n).rCount) ∧
      (pc₁ = k.ret ∨ pc₁.addfreeCont = some k ∧ pc₁.makeRank < pc.makeRank) := by
  cases pc <;> cases hk
  all_goals
    simp only [Cache.runPc, hu.lockFree ht rfl, if_true]
    try split_ifs
  all_goals exact ⟨_, _, rfl, rfl, fun _ => by simp; try (split_ifs with h <;> simp [h]),
    by simp [Pc.addfreeCont, Pc.makeRank]⟩

/-- **`fusefs_addfree` returns to its caller**, from any point of it, within seven steps. -/
theorem Unlocked.addfree_run {k : AddfreeCont} (hu : Unlocked s t) (ht : s.threads[t]? = some pc)
    (hk : pc.addfreeCont = some k) :
    ∃ (n : ℕ) (X : Cache), s.run (List.replicate n (.run t)) = some X ∧ X.threads[t]? = some k.ret ∧
      Unlocked X t ∧ ∀ m, (X.node m).rCount = (s.node m).rCount := by
  generalize h : pc.makeRank = μ
  induction μ using Nat.strong_induction_on generalizing s pc with
  | _ μ ih =>
  obtain ⟨X, pc₁, hr, hX, hc, hnext⟩ := hu.addfree_step ht hk
  have h₁ : s.step (.run t) = some (X.setPc t pc₁) := (Cache.step_run ht).trans hr
  have ht₁ : (X.setPc t pc₁).threads[t]? = some pc₁ :=
    setPc_self (show X.threads[t]? = some pc by rw [hX]; exact ht)
  rcases hnext with rfl | ⟨hk₁, hlt⟩
  · exact ⟨1, _, by rw [List.replicate_one, Cache.run, h₁]; rfl, ht₁, hu.setPc ht hX _, hc⟩
  · obtain ⟨n, Y, hY, hYt, hYu, hYc⟩ := ih _ (h ▸ hlt) (hu.setPc ht hX pc₁) ht₁ hk₁ rfl
    exact ⟨n + 1, Y, by rw [List.replicate_succ, Cache.run, h₁, Option.some_bind, hY], hYt, hYu,
      fun m => (hYc m).trans (hc m)⟩

/-! ## The functions of the file -/

theorem Unlocked.finishes_of_inFindcreate (hu : Unlocked s t) (ht : s.threads[t]? = some pc)
    (hp : pc.InFindcreate) : s.Finishes t := by
  obtain ⟨a, ha⟩ := pc.exists_popped s.fusefreelist
  obtain ⟨fuel, s', hsolo, ⟨r, nw, hr⟩, -⟩ := hu.run ht hp ha
  obtain ⟨n, hn⟩ := solo_run hsolo
  exact .of_runs hn (.of_idle hr rfl)

theorem Unlocked.finishes_of_reclaimOk (hu : Unlocked s t) (ht : s.threads[t]? = some pc)
    (hok : pc.ReclaimOk s) (hc : ∀ n, (s.node n).rCount = 0) : s.Finishes t := by
  obtain ⟨n, s', -, hrun, hidle, -⟩ := hu.reclaim_run ht hok fun m _ => hc m
  exact .of_runs hrun (.of_idle hidle rfl)

/-- `fusefs_destroy_table`'s final loop, from any node of `rlist`. -/
theorem Unlocked.finishes_dtNext : ∀ {s : Cache} (rlist : List Node), Unlocked s t →
    s.threads[t]? = some (dtNext rlist) → s.Finishes t
  | _, [], _, ht => .of_idle ht rfl
  | _, _ :: rlist, hu, ht => by
    obtain ⟨n, X, hX, hXt, hXu, -⟩ := hu.addfree_run ht rfl
    exact .of_runs hX (Unlocked.finishes_dtNext rlist hXu hXt)

theorem Unlocked.finishes_addfree {k : AddfreeCont} (hu : Unlocked s t)
    (ht : s.threads[t]? = some pc) (hk : pc.addfreeCont = some k) (hc : ∀ n, (s.node n).rCount = 0) :
    s.Finishes t := by
  obtain ⟨n, X, hX, hXt, hXu, hXc⟩ := hu.addfree_run ht hk
  refine .of_runs hX ?_
  cases k with
  | inactive => exact .of_idle hXt rfl
  | lostRace => exact hXu.finishes_of_inFindcreate hXt trivial
  | destroyTable rlist => exact hXu.finishes_dtNext rlist hXt
  | reclaim => exact hXu.finishes_of_reclaimOk hXt trivial fun m => (hXc m).trans (hc m)

/-- `avl_destroy_nodes` hands `np` to the drain: the node leaves the nodes still to come. -/
theorem Cache.drainOne_eq (t : Tid) (mi : Mount) (np : Node) (rest rlist : List Node) :
    ∃ (X : Cache) (rlist' : List Node),
      s.drainOne t mi np rest rlist = X.setPc t (.dtDrain mi (rest.erase np) rlist') ∧
      X.threads = s.threads := by
  unfold Cache.drainOne
  split_ifs
  exacts [⟨_, _, rfl, rfl⟩, ⟨s, _, rfl, rfl⟩]

/-- `fusefs_destroy_table`'s drain, fed by `avl_destroy_nodes` in the order of `rest`. -/
theorem Unlocked.finishes_dtDrain {mi : Mount} : ∀ {s : Cache} {rest rlist : List Node},
    Unlocked s t → s.threads[t]? = some (.dtDrain mi rest rlist) → s.Finishes t
  | _, [], rlist, hu, ht =>
    .of_step (X := _) ht (by rw [Cache.runPc, if_pos rfl]) ((hu.setPc ht rfl _).finishes_dtNext rlist
      (setPc_self ht))
  | s, np :: rest, rlist, hu, ht => by
    obtain ⟨X, rlist', hX, hXt⟩ := Cache.drainOne_eq (s := s) t mi np (np :: rest) rlist
    have h₁ : s.step (.drain t np) = some (X.setPc t (.dtDrain mi rest rlist')) := by
      simp only [Cache.step, ht, if_pos (List.mem_cons_self np rest), hX, List.erase_cons_head]
    have ht₁ : (X.setPc t (.dtDrain mi rest rlist')).threads[t]? = some (.dtDrain mi rest rlist') :=
      setPc_self (show X.threads[t]? = some _ by rw [hXt]; exact ht)
    have hrun : s.run [.drain t np] = some (X.setPc t (.dtDrain mi rest rlist')) := by
      rw [Cache.run, h₁]; rfl
    exact .of_run hrun (fun a ha => .inr ⟨np, List.eq_of_mem_singleton ha⟩)
      (Unlocked.finishes_dtDrain (hu.setPc ht hXt _) ht₁)

/-- `fusefs_check_table`'s walk. -/
theorem finishes_ctWalk {mi : Mount} {rtnp : Node} {rest : List Node} {b : ℕ}
    (ht : s.threads[t]? = some (.ctWalk mi rtnp rest b)) : s.Finishes t := by
  obtain ⟨n, -, hrun⟩ := ctWalk_run (List.getElem?_eq_some_iff.mp ht).1 mi rtnp rest b
  rw [Cache.setPc_eq_self ht] at hrun
  exact .of_runs hrun (.of_idle (setPc_self ht) rfl)

/-- `fusefs_check_table`'s reads of one node, then its walk. -/
theorem finishes_ctRead {mi : Mount} {rtnp np : Node} {rest : List Node} {b : ℕ} {f : CtField}
    (ht : s.threads[t]? = some (.ctRead mi rtnp np rest b f)) : s.Finishes t := by
  have count : ∀ {s : Cache} {b : ℕ}, s.threads[t]? = some (.ctRead mi rtnp np rest b .count) →
      s.Finishes t := fun ht => by
    refine .of_step (X := _) ht rfl ?_
    dsimp only
    split_ifs <;> first | exact .of_idle (setPc_self ht) rfl | exact finishes_ctWalk (setPc_self ht)
  have dirty : ∀ {s : Cache} {b : ℕ}, s.threads[t]? = some (.ctRead mi rtnp np rest b .dirty) →
      s.Finishes t := fun ht => .of_step (X := _) ht rfl (count (setPc_self ht))
  cases f with
  | count => exact count ht
  | dirty => exact dirty ht
  | freef => exact .of_step (X := _) ht rfl (dirty (setPc_self ht))

/-! ## Any call -/

/-- **Every call finishes when run alone.**  A thread at any point of any function of the
file, in any state, gets out of the file by its own steps (its drain fed by
`avl_destroy_nodes`) when no other thread holds an index lock and no node has an `r_count`:
`make_fusenode`'s `goto start` ends, `fusefs_addfree` returns to its caller, and the loops of
`fusefs_node_reclaim`, `fusefs_destroy_table` and `fusefs_check_table` end. -/
theorem call_finishes_alone (hu : Unlocked s t) (ht : s.threads[t]? = some pc)
    (hc : ∀ n, (s.node n).rCount = 0) : s.Finishes t := by
  cases pc with
  | idle | returned | checked => exact .of_idle ht rfl
  | rcLoop => exact hu.finishes_of_reclaimOk ht trivial hc
  | rcFlags np | rcUnhash np => exact hu.finishes_of_reclaimOk ht (hc np) hc
  | afCount | afHashed | afOthers | afDestroy | afUnhash | afInactive | afRecheck | afPool =>
    exact hu.finishes_addfree ht rfl hc
  | dtEnter mi =>
    refine .of_step (X := s) ht (by rw [Cache.runPc, if_pos (hu.lockFree ht rfl mi)]) ?_
    exact (hu.setPc ht rfl _).finishes_dtDrain (setPc_self ht)
  | dtDrain => exact hu.finishes_dtDrain ht
  | ctEnter mi rtnp =>
    refine .of_step (X := s) ht (by rw [Cache.runPc, if_pos (hu.writerFree ht rfl mi)]) ?_
    exact finishes_ctWalk (setPc_self ht)
  | ctWalk => exact finishes_ctWalk ht
  | ctRead => exact finishes_ctRead ht
  | _ => exact hu.finishes_of_inFindcreate ht trivial

end Finish

/-- `fusefs_destroy_table` has just been called on a cache with no node. -/
def unmountA : Cache := (Cache.init 1 false 1).setPc 0 (.dtEnter 0)

theorem call_finishes_alone_unmountA :
    Unlocked unmountA 0 ∧ unmountA.threads[0]? = some (.dtEnter 0) ∧
      (∀ n, (unmountA.node n).rCount = 0) ∧ unmountA.Finishes 0 := by
  have hu : Unlocked unmountA 0 :=
    unlocked_of_threads_eq (show unmountA.threads = [.dtEnter 0] from rfl)
  have ht : unmountA.threads[0]? = some (.dtEnter 0) := rfl
  have hc : ∀ n, (unmountA.node n).rCount = 0 := fun _ => rfl
  exact ⟨hu, ht, hc, call_finishes_alone hu ht hc⟩

end FusefsNode
