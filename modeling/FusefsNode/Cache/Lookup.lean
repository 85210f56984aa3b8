import FusefsNode.Cache.Release

/-!
# Lookups: `fusefs_nget`, and what `fusefs_rmhash` does to them

`fusefs_nget` refuses the names "", "." and "..", and otherwise calls
`fusefs_node_findcreate` under the directory node's mount and path with attributes.  It then
asserts that it got a node: with `fap != NULL` a call creates one when the lookup misses,
and when `make_fusenode` loses the race to insert its shell it returns the winner.

The assertion is a fact about every interleaving, not only about a call run alone: whatever
other threads, the pager, code outside the file and unmounts do meanwhile, a call with
attributes is still running or has returned a node (`findcreate_never_null`).  Run alone from
a state of the invariant, `fusefs_nget` returns the node linked under the directory's path,
the separator and the name (`nget_returns`).

`fusefs_rmhash` takes a node out of its index while its holder keeps it: the next lookup of
its path misses, and one with attributes builds another node (`rmhash_then_lookup`).

## Strategy

* `Pc.creating` marks the points of a call with attributes, and its return with a node.  The
  thread's own step keeps it there (`runPc_next`: one case per program counter, with the
  continuations of `sn_hashfind` and `fusefs_addfree` handled once, by
  `HashfindCont.done_creating` and `AddfreeCont.ret_creating`).
* An action changes at most the program counter of the thread it runs in (`step_threads`),
  so every other action leaves the caller's as it is.
* `run_creating` is the induction over the interleaving, in which the caller starts no new
  call.
-/

namespace FusefsNode

/-! ## Calls with attributes -/

/-- Whether `fusefs_addfree` was called by `make_fusenode` on a shell that lost the race. -/
def AddfreeCont.lostRaceCall : AddfreeCont → Bool
  | .lostRace .. => true
  | _ => false

/-- The points of a call of `fusefs_node_findcreate` with `fap != NULL`: `sn_hashfind` on the
way to `make_fusenode`, `make_fusenode`, the `fusefs_addfree` of a shell that lost the race;
and the return with a node. -/
def Pc.creating : Pc → Bool
  | .returned np _ => np.isSome
  | .fcEnter _ _ create => create
  | .hfFreef _ _ k | .hfLock _ _ k | .hfHold _ _ k => k != .lookup
  | .mkFree .. | .mkAlloc .. | .mkFlags .. | .mkUnhash .. | .mkInactive .. | .mkReinit ..
  | .mkInsert .. | .lostRet .. => true
  | .afCount _ k | .afHashed _ k | .afOthers _ k | .afDestroy _ k | .afUnhash _ k
  | .afInactive _ k | .afRecheck _ k | .afPool _ k => k.lostRaceCall
  | _ => false

/-- The thread an action runs in; the pager's `VN_HOLD`, code outside the file and an unmount
run in none of the model's threads. -/
def Action.tid : Action → Option Tid
  | .run t | .drain t _ | .findcreate t .. | .release t _ | .rmhash t _ | .prune t _
  | .reclaim t | .destroyTable t _ | .checkTable t .. | .pagerRele t _ => some t
  | .pagerHold _ | .outside .. | .unmount _ => none

theorem HashfindCont.done_creating (k : HashfindCont) (mi : Mount) (np : Node) :
    (k.done mi np).creating := by
  cases k <;> rfl

theorem AddfreeCont.ret_creating {k : AddfreeCont} (hk : k.lostRaceCall) : k.ret.creating := by
  cases k <;> first | rfl | cases hk

section Steps

variable {s s' : Cache} {t : Tid} {pc : Pc}

/-- **The step lemma.**  A thread's step changes no program counter but its own, and from a
point of a call with attributes it stays in the call or returns a node. -/
theorem runPc_next (h : s.runPc t pc = some s') :
    ∃ pc', s'.threads = s.threads.set t pc' ∧ (pc.creating → pc'.creating) := by
  cases pc <;> dsimp only [Cache.runPc] at h <;> (repeat' split at h) <;> cases h <;>
    refine ⟨_, rfl, fun hc => ?_⟩ <;>
    first
      | exact hc
      | rfl
      | exact HashfindCont.done_creating _ _ _
      | exact AddfreeCont.ret_creating hc
      | (cases hc <;> first | rfl | contradiction)

theorem vnReleInactive_threads (np : Node) :
    (s.vnReleInactive t np).threads = s.threads ∨
      ∃ pc', (s.vnReleInactive t np).threads = s.threads.set t pc' := by
  unfold Cache.vnReleInactive
  split_ifs
  exacts [.inl rfl, .inr ⟨_, rfl⟩]

/-- An action changes at most the program counter of the thread it runs in. -/
theorem step_threads {a : Action} (h : s.step a = some s') :
    s'.threads = s.threads ∨ ∃ u pc', a.tid = some u ∧ s'.threads = s.threads.set u pc' := by
  cases a with
  | run u =>
    dsimp only [Cache.step] at h
    cases hu : s.threads[u]? with
    | none => simp [hu] at h
    | some pu =>
      obtain ⟨pc', h', -⟩ := runPc_next (by simpa [hu] using h)
      exact .inr ⟨u, pc', rfl, h'⟩
  | drain u np =>
    dsimp only [Cache.step] at h
    split at h <;> try split_ifs at h
    all_goals cases h
    unfold Cache.drainOne
    split_ifs
    exacts [.inr ⟨u, _, rfl, rfl⟩, .inr ⟨u, _, rfl, rfl⟩]
  | release u np | pagerRele u np =>
    dsimp only [Cache.step] at h
    split_ifs at h; cases h
    exact (vnReleInactive_threads np).imp id fun ⟨pc', h'⟩ => ⟨u, pc', rfl, h'⟩
  | findcreate | reclaim | destroyTable | checkTable =>
    dsimp only [Cache.step] at h
    split_ifs at h; cases h
    exact .inr ⟨_, _, rfl, rfl⟩
  | rmhash | prune | pagerHold | outside | unmount =>
    dsimp only [Cache.step] at h
    try split_ifs at h
    cases h
    exact .inl rfl

/-- An action of another thread, or of no thread, leaves a thread's program counter. -/
theorem step_getElem?_of_ne {a : Action} (h : s.step a = some s') (ha : a.tid ≠ some t) :
    s'.threads[t]? = s.threads[t]? := by
  rcases step_threads h with h' | ⟨u, pc', hu, h'⟩
  · rw [h']
  · rw [h', List.getElem?_set_ne]
    rintro rfl; exact ha hu

end Steps

section Run

variable {t : Tid}

/-- **The run lemma.**  In an interleaving in which thread `t` starts no new call, a thread
in a call with attributes stays in it or returns a node. -/
theorem run_creating : ∀ {s s' : Cache} {pc : Pc} {as : List Action},
    (∀ a ∈ as, a.tid = some t → a = .run t) → s.threads[t]? = some pc → pc.creating →
      s.run as = some s' → ∃ pc', s'.threads[t]? = some pc' ∧ pc'.creating
  | _, _, pc, [], _, ht, hc, h => by cases h; exact ⟨pc, ht, hc⟩
  | s, s', pc, a :: as, hno, ht, hc, h => by
    obtain ⟨s₁, h₁, hrest⟩ := Option.bind_eq_some.mp h
    have hno' : ∀ b ∈ as, b.tid = some t → b = .run t := fun b hb => hno b (.tail _ hb)
    by_cases ha : a.tid = some t
    · obtain rfl := hno a (.head _) ha
      obtain ⟨pc₁, hth, hc₁⟩ := runPc_next ((Cache.step_run ht).symm.trans h₁)
      have ht₁ : s₁.threads[t]? = some pc₁ := by
        rw [hth, List.getElem?_set_self (List.getElem?_eq_some_iff.mp ht).1]
      exact run_creating hno' ht₁ (hc₁ hc) hrest
    · exact run_creating hno' ((step_getElem?_of_ne h₁ ha).trans ht) hc hrest

/-- **A call with attributes never returns `NULL`**, in any interleaving: whatever other
threads, the pager, code outside the file and unmounts do while a `fusefs_node_findcreate`
with `fap != NULL` runs, in every state until the caller starts a new call, the caller has
either not returned yet or returned a node.  This is the `ASSERT(np != NULL)` of
`fusefs_nget`. -/
theorem findcreate_never_null {s s₁ s' : Cache} {mi : Mount} {dirnm name : Path} {sep : UInt8}
    {fap : Fap} {as : List Action} (hfap : fap ≠ .null)
    (henter : s.step (.findcreate t mi dirnm sep name fap) = some s₁)
    (hno : ∀ a ∈ as, a.tid = some t → a = .run t) (hrun : s₁.run as = some s') :
    ∀ r nw, s'.threads[t]? = some (.returned r nw) → r ≠ none := by
  dsimp only [Cache.step] at henter
  split_ifs at henter with hidle
  cases henter
  obtain ⟨pc, ht, -⟩ := idle_iff.mp hidle
  obtain ⟨pc', ht', hc'⟩ := run_creating hno (setPc_self ht)
    (show (Pc.fcEnter mi _ (decide (fap ≠ .null))).creating from decide_eq_true hfap) hrun
  intro r nw hr
  rw [hr] at ht'; cases ht'
  exact Option.ne_none_iff_isSome.mpr hc'

theorem findcreate_never_null_heldA :
    Fap.fattr0 ≠ .null ∧
      (Cache.init 1 false 1).step (.findcreate 0 0 [] 0 [97] .fattr0) =
        some ((Cache.init 1 false 1).setPc 0 (.fcEnter 0 (findcreateRpath [] 0 [97]) true)) ∧
      ((Cache.init 1 false 1).setPc 0 (.fcEnter 0 (findcreateRpath [] 0 [97]) true)).run
        (List.replicate 4 (.run 0)) = some heldA ∧
      ∀ r nw, heldA.threads[0]? = some (.returned r nw) → r ≠ none := by
  have hfap : Fap.fattr0 ≠ .null := nofun
  have henter : (Cache.init 1 false 1).step (.findcreate 0 0 [] 0 [97] .fattr0) =
      some ((Cache.init 1 false 1).setPc 0 (.fcEnter 0 (findcreateRpath [] 0 [97]) true)) := rfl
  have hrun : ((Cache.init 1 false 1).setPc 0 (.fcEnter 0 (findcreateRpath [] 0 [97]) true)).run
      (List.replicate 4 (.run 0)) = some heldA := rfl
  exact ⟨hfap, henter, hrun, findcreate_never_null hfap henter (by simp) hrun⟩

end Run

/-! ## `fusefs_nget` -/

/-- `EINVAL` of `sys/errno.h`. -/
def EINVAL : ℤ := 22

/-- `fusefs_nget`'s test "Don't allow "" or "." or ".." here", on the `nmlen` bytes of
`name`. -/
def ngetRefuses (name : Path) : Bool :=
  name.length == 0 || (name.length == 1 && name.getD 0 0 == 46) ||
    (name.length == 2 && name.getD 0 0 == 46 && name.getD 1 0 == 46)

/-- `fusefs_nget(dvp, name, nmlen, fap, vpp)` in thread `t` on the directory node `dnp`, with
`sep` for `FUSEFS_DNP_SEP(dnp)`: `EINVAL`, or its call
`fusefs_node_findcreate(dnp->n_mount, dnp->n_rpath, dnp->n_rplen, name, nmlen, sep, fap)`. -/
def Cache.nget (s : Cache) (t : Tid) (dnp : Node) (name : Path) (sep : UInt8) (fap : Fap) :
    Except ℤ Action :=
  if ngetRefuses name then .error EINVAL
  else .ok (.findcreate t (s.node dnp).nMount ((s.node dnp).nRpath.getD []) sep name fap)

theorem ngetRefuses_iff (name : Path) :
    ngetRefuses name ↔ name = [] ∨ name = [46] ∨ name = [46, 46] := by
  match name with
  | [] => decide
  | [_] => simp [ngetRefuses]
  | [_, _] => simp [ngetRefuses]
  | _ :: _ :: _ :: _ => simp [ngetRefuses]

section Nget

variable {s s' : Cache} {t : Tid} {mi : Mount} {K : Path}

/-- With attributes, `fusefs_node_findcreate` finds or creates the node it returns. -/
theorem FindcreatePost.of_ne_null {fap : Fap} (hfap : fap ≠ .null)
    (h : FindcreatePost s s' t mi K fap) :
    ∃ np, Returned s' mi K np ∧
      ((np ∈ (s.mount mi).fmiHashAvl ∧ (s.node np).nRpath = some K ∧ FoundPost s s' t np) ∨
       ((∀ n ∈ (s.mount mi).fmiHashAvl, (s.node n).nRpath ≠ some K) ∧ Created s s' t mi np)) := by
  cases fap with
  | null => exact absurd rfl hfap
  | _ => exact h

/-- **`fusefs_nget`.**  It refuses exactly "", "." and "..".  Any other name under a directory
node with a path, looked up with attributes in a state of the invariant with no other thread
inside the file, is found or created: the call returns a node linked under the directory's
path, the separator and the name in the directory's mount, and keeps the invariant. -/
theorem nget_returns {dnp : Node} {name dirnm : Path} {sep : UInt8} {fap : Fap} (hs : Inv s)
    (hidle : s.idle t) (hq : Quiet s t) (hdir : (s.node dnp).nRpath = some dirnm)
    (hK : NulFree (findcreateRpath dirnm sep name)) (hfap : fap ≠ .null) :
    (s.nget t dnp name sep fap = .error EINVAL ↔ name = [] ∨ name = [46] ∨ name = [46, 46]) ∧
    match s.nget t dnp name sep fap with
    | .error e => e = EINVAL ∧ (name = [] ∨ name = [46] ∨ name = [46, 46])
    | .ok a => ∃ fuel s' np nw, (s.step a).bind (Cache.solo t fuel) = some s' ∧
        s'.threads[t]? = some (.returned (some np) nw) ∧
        Returned s' (s.node dnp).nMount (findcreateRpath dirnm sep name) np ∧ Inv s' := by
  rw [← ngetRefuses_iff]
  unfold Cache.nget
  split_ifs with hr
  · exact ⟨by simp [hr], rfl, hr⟩
  refine ⟨by simp [hr], ?_⟩
  obtain ⟨pc, ht, -⟩ := idle_iff.mp hidle
  set K := findcreateRpath dirnm sep name
  have henter : s.step (.findcreate t (s.node dnp).nMount ((s.node dnp).nRpath.getD []) sep name fap) =
      some (s.setPc t (.fcEnter (s.node dnp).nMount K true)) := by
    simp [Cache.step, hidle, hdir, K, hfap]
  have a : Alone _ t _ := ⟨hs.step henter, hq.setPc ht _, setPc_self ht⟩
  obtain ⟨s', hp, hpost⟩ := a.create hK fap hfap
  obtain ⟨np, hlink, ⟨-, -, hret, -⟩ | ⟨-, hret, -⟩⟩ := hpost.of_ne_null hfap
  all_goals
    obtain ⟨fuel, hfuel⟩ := hp.solo_eq hret
    exact ⟨fuel, s', np, _, by rw [henter]; exact hfuel, hret, hlink, solo_inv hfuel a.inv⟩

/-- In `heldA`, node 0 is the directory "a"; `fusefs_nget` of "b" under it with separator
'/' creates "a/b". -/
theorem nget_returns_heldA :
    Inv heldA ∧ heldA.idle 0 ∧ Quiet heldA 0 ∧ (heldA.node 0).nRpath = some [97] ∧
      NulFree (findcreateRpath [97] 47 [98]) ∧ Fap.fattr0 ≠ .null ∧
      ∃ fuel s' np nw, (heldA.step (.findcreate 0 0 [97] 47 [98] .fattr0)).bind
        (Cache.solo 0 fuel) = some s' ∧ s'.threads[0]? = some (.returned (some np) nw) ∧
        Returned s' 0 [97, 47, 98] np ∧ Inv s' := by
  obtain ⟨hth, -, -, -, -, hK, -⟩ := heldA_facts
  have hs := reachable_heldA.inv
  have hidle : heldA.idle 0 := by simp [Cache.idle, hth, Pc.isIdle]
  have hq := quiet_of_threads_eq hth
  have hdir : (heldA.node 0).nRpath = some [97] := hK
  have hnul : NulFree (findcreateRpath [97] 47 [98]) := by decide
  have hfap : Fap.fattr0 ≠ .null := nofun
  have h := (nget_returns hs hidle hq hdir hnul hfap).2
  have hm : (heldA.node 0).nMount = 0 := by decide
  simp only [Cache.nget, show ngetRefuses [98] = false from rfl, Bool.false_eq_true, if_false, hdir,
    Option.getD_some, hm, show findcreateRpath [97] 47 [98] = [97, 47, 98] from rfl] at h
  exact ⟨hs, hidle, hq, hdir, hnul, hfap, h⟩

end Nget

/-! ## `fusefs_rmhash` -/

section Rmhash

variable {s : Cache} {t : Tid} {mi : Mount} {np : Node}

/-- An index holds one node per path. -/
theorem Inv.eq_of_nRpath_eq {K : Path} {n : Node} (hs : Inv s) (hK : NulFree K)
    (hn : n ∈ (s.mount mi).fmiHashAvl) (hnp : np ∈ (s.mount mi).fmiHashAvl)
    (hpn : (s.node n).nRpath = some K) (hpnp : (s.node np).nRpath = some K) : n = np :=
  Option.some.inj ((hs.avlFind_eq_some hK hn hpn).symm.trans (hs.avlFind_eq_some hK hnp hpnp))

/-- **`fusefs_rmhash` hides a node from lookups.**  A holder of an indexed node calls
`fusefs_rmhash` on it, then looks its path up again, with no other thread inside the file.
The node leaves its index and keeps its path; the lookup without attributes returns `NULL`,
and one with attributes returns another node, linked under the path; the holder keeps its
reference throughout. -/
theorem rmhash_then_lookup {dirnm name : Path} {sep : UInt8} (hs : Inv s) (hidle : s.idle t)
    (hq : Quiet s t) (hheld : np ∈ s.held) (hidx : np ∈ (s.mount mi).fmiHashAvl)
    (hK : (s.node np).nRpath = some (findcreateRpath dirnm sep name))
    (hnul : NulFree (findcreateRpath dirnm sep name)) (fap : Fap) :
    ∃ s₁, s.step (.rmhash t np) = some s₁ ∧ np ∉ (s₁.mount mi).fmiHashAvl ∧
      (s₁.node np).nRpath = (s.node np).nRpath ∧
      ∃ fuel s₂ r nw, (s₁.step (.findcreate t mi dirnm sep name fap)).bind (Cache.solo t fuel) = some s₂ ∧
        s₂.threads[t]? = some (.returned r nw) ∧ np ∈ s₂.held ∧ (fap = .null → r = none) ∧
        (fap ≠ .null → ∃ np', r = some np' ∧ np' ≠ np ∧
          Returned s₂ mi (findcreateRpath dirnm sep name) np') := by
  obtain ⟨pc, ht, hpc⟩ := idle_iff.mp hidle
  obtain ⟨-, hh, hm, -⟩ := hs.linked mi np hidx
  have hlf : s.lockFree (s.node np).nMount :=
    (⟨hs, hq, ht⟩ : Alone s t pc).lockFree (Pc.isIdle_tentative hpc).2 _
  have h₁ : s.step (.rmhash t np) = some (s.snRmhashLocked np) := if_pos ⟨hidle, hheld, hh, hlf⟩
  set s₁ := s.snRmhashLocked np
  set K := findcreateRpath dirnm sep name
  have hs₁ := hs.step h₁
  have hidx₁ : (s₁.mount mi).fmiHashAvl = (s.mount mi).fmiHashAvl.erase np := by simp [s₁, hm]
  have hpath₁ : ∀ n, (s₁.node n).nRpath = (s.node n).nRpath := fun n => by simp [s₁]
  have hout : np ∉ (s₁.mount mi).fmiHashAvl := hidx₁ ▸ (hs.index_nodup mi).not_mem_erase
  -- nothing is left under `K` in the index
  have hmiss : ∀ n ∈ (s₁.mount mi).fmiHashAvl, (s₁.node n).nRpath ≠ some K := by
    intro n hn hp
    have hn' := hn
    rw [hidx₁] at hn'
    exact hout (hs.eq_of_nRpath_eq hnul (List.mem_of_mem_erase hn') hidx (hpath₁ n ▸ hp) hK ▸ hn)
  have ht₁ : s₁.threads[t]? = some pc := ht
  have hheld₁ : np ∈ s₁.held := hheld
  refine ⟨s₁, h₁, hout, hpath₁ np, ?_⟩
  by_cases hf : fap = .null
  · subst hf
    have henter : s₁.step (.findcreate t mi dirnm sep name .null) =
        some (s₁.setPc t (.fcEnter mi K false)) := if_pos (show s₁.idle t from hidle)
    have a : Alone _ t _ := ⟨hs₁.step henter, (show Quiet s₁ t from hq).setPc ht₁ _, setPc_self ht₁⟩
    obtain ⟨s₂, hp, ⟨n, hn, hpn, -⟩ | ⟨-, rfl⟩⟩ := a.lookup hnul
    · exact absurd hpn (hmiss n hn)
    have hret : ((s₁.setPc t (.fcEnter mi K false)).setPc t (.returned none false)).threads[t]? =
        some (.returned none false) := setPc_self a.pc
    obtain ⟨fuel, hfuel⟩ := hp.solo_eq hret
    exact ⟨fuel, _, none, false, by rw [henter]; exact hfuel, hret, hheld₁, fun _ => rfl,
      fun h => absurd rfl h⟩
  · have henter : s₁.step (.findcreate t mi dirnm sep name fap) =
        some (s₁.setPc t (.fcEnter mi K true)) := by
      rw [← decide_eq_true hf]; exact if_pos (show s₁.idle t from hidle)
    have a : Alone _ t _ := ⟨hs₁.step henter, (show Quiet s₁ t from hq).setPc ht₁ _, setPc_self ht₁⟩
    obtain ⟨s₂, hp, hpost⟩ := a.create hnul fap hf
    obtain ⟨np', hret, ⟨hn, hpn, -⟩ | ⟨-, hth, hheld₂, -, -, j, -, hnew⟩⟩ := hpost.of_ne_null hf
    · exact absurd hpn (hmiss np' hn)
    have hne : np' ≠ np := by
      rintro rfl
      rcases hnew with ⟨hnext, -⟩ | ⟨⟨i, -, hi⟩, -⟩
      · exact absurd hnext (hs₁.lt_nextNode (hs₁.refsLive np' (by simp [Cache.refs, hheld₁]))).ne
      · exact hs₁.heldFree np' hheld₁ (List.getElem?_mem hi)
    obtain ⟨fuel, hfuel⟩ := hp.solo_eq hth
    exact ⟨fuel, s₂, some np', true, by rw [henter]; exact hfuel, hth, hheld₂ ▸ .tail _ hheld₁,
      fun h => absurd h hf, fun _ => ⟨np', rfl, hne, hret⟩⟩

/-- Thread 0 unlinks node 0 of `heldA`, "a", and looks "a" up again: `NULL`. -/
theorem rmhash_then_lookup_heldA :
    Inv heldA ∧ heldA.idle 0 ∧ Quiet heldA 0 ∧ 0 ∈ heldA.held ∧ 0 ∈ (heldA.mount 0).fmiHashAvl ∧
      (heldA.node 0).nRpath = some (findcreateRpath [] 0 [97]) ∧ NulFree (findcreateRpath [] 0 [97]) ∧
      ∃ s₁, heldA.step (.rmhash 0 0) = some s₁ ∧ 0 ∉ (s₁.mount 0).fmiHashAvl ∧
        ∃ fuel s₂ nw, (s₁.step (.findcreate 0 0 [] 0 [97] .null)).bind (Cache.solo 0 fuel) = some s₂ ∧
          s₂.threads[0]? = some (.returned none nw) ∧ 0 ∈ s₂.held := by
  obtain ⟨hth, hheld, -, -, hidx, hK, -⟩ := heldA_facts
  have hs := reachable_heldA.inv
  have hidle : heldA.idle 0 := by simp [Cache.idle, hth, Pc.isIdle]
  have hq := quiet_of_threads_eq hth
  have hheld' : 0 ∈ heldA.held := by simp [hheld]
  have hidx' : 0 ∈ (heldA.mount 0).fmiHashAvl := by simp [hidx]
  have hnul : NulFree (findcreateRpath [] 0 [97]) := by decide
  obtain ⟨s₁, h₁, hout, -, fuel, s₂, r, nw, hrun, hret, hheld₂, hnull, -⟩ :=
    rmhash_then_lookup hs hidle hq hheld' hidx' hK hnul .null
  obtain rfl := hnull rfl
  exact ⟨hs, hidle, hq, hheld', hidx', hK, hnul, s₁, h₁, hout, fuel, s₂, nw, hrun, hret, hheld₂⟩

end Rmhash

end FusefsNode
