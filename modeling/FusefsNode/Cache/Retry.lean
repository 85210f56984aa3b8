import FusefsNode.Cache.Findcreate

/-!
# `make_fusenode`'s `goto start`, from any state

`make_fusenode` starts over from `start` when the victim it popped off the freelist turns out
to have another holder.  Run with no other thread holding an index lock, from any state at
all, a call returns, and it passes `start` at most once more than there are nodes on the
freelist (`make_fusenode_retries`): each pass that starts over has popped the freelist's head,
which the call never puts back, so the freelists seen at `start` are each the tail of the one
before.

## Strategy

* `Pc.startBudget` counts the passes through `start` a thread may still make, and
  `Pc.makeRank` orders the points of one pass as the code runs through them.  The step lemma
  `Unlocked.advance` says that from every point of a call (`Pc.InFindcreate`) the thread
  moves, spends budget only at `start`, and moves down the order unless it is at `start`;
  `Pc.Popped` records what the pass has done to the freelist since `start`.
* `Unlocked.run`: by induction on `21 * budget + rank`, which every step lowers, the solo run
  returns, and each freelist seen at `start` is the tail of the one seen before it.
-/

namespace FusefsNode

namespace Cache

/-- The states thread `t` passes through in a solo run of at most `fuel` steps, before it
returns. -/
def soloStates (t : Tid) : ℕ → Cache → List Cache
  | 0, _ => []
  | fuel + 1, s => match s.threads[t]? with
    | some (.returned _ _) => []
    | _ => s :: ((s.step (.run t)).map (soloStates t fuel)).getD []

end Cache

/-- `make_fusenode`'s `start`: the look-up that begins each pass. -/
def Pc.isStart : Pc → Bool
  | .fcEnter _ _ true => true
  | _ => false

/-- Thread `t` is at `start`. -/
def Cache.atStart (t : Tid) (s : Cache) : Bool := (s.threads[t]?.map Pc.isStart).getD false

/-- The points of a call of `fusefs_node_findcreate`: its `sn_hashfind` and `make_fusenode`,
the `fusefs_addfree` of a shell that lost the race, and the return. -/
def Pc.InFindcreate : Pc → Prop
  | .afCount _ k | .afHashed _ k | .afOthers _ k | .afDestroy _ k | .afUnhash _ k
  | .afInactive _ k | .afRecheck _ k | .afPool _ k => ∃ mi tnp, k = .lostRace mi tnp
  | .returned .. | .fcEnter .. | .hfFreef .. | .hfLock .. | .hfHold .. | .mkFree ..
  | .mkAlloc .. | .mkFlags .. | .mkUnhash .. | .mkInactive .. | .mkReinit .. | .mkInsert ..
  | .lostRet .. => True
  | _ => False

/-- The points of one pass, in the order the code runs through them: the steps to `start`
come before `start`, and everything after the last pass after it. -/
def Pc.makeRank : Pc → ℕ
  | .mkFree .. => 20
  | .mkFlags .. => 19
  | .mkUnhash .. => 18
  | .mkInactive .. => 17
  | .mkReinit .. => 16
  | .fcEnter .. => 15
  | .mkAlloc .. => 14
  | .mkInsert .. => 13
  | .hfFreef .. => 12
  | .hfLock .. => 11
  | .hfHold .. => 10
  | .afCount .. => 9
  | .afHashed .. => 8
  | .afOthers .. => 7
  | .afDestroy .. => 6
  | .afUnhash .. => 5
  | .afInactive .. => 4
  | .afRecheck .. => 3
  | .afPool .. => 2
  | .lostRet .. => 1
  | _ => 0

/-- The passes through `start` a thread at `pc` may still make with `n` nodes on the
freelist: one at `start`, and one for each node a later pass can pop. -/
def Pc.startBudget (n : ℕ) : Pc → ℕ
  | .fcEnter _ _ true | .mkFlags .. | .mkUnhash .. | .mkInactive .. | .mkReinit .. => n + 1
  | .mkFree .. => n
  | _ => 0

/-- What the pass that passed `start` with the freelist `a` has done to the freelist `l`:
nothing before its pop, and popped the head from then until the next `start`. -/
def Pc.Popped (a l : List Node) : Pc → Prop
  | .mkFree .. => l = a
  | .fcEnter _ _ true | .mkFlags .. | .mkUnhash .. | .mkInactive .. | .mkReinit .. =>
    a ≠ [] ∧ l = a.tail
  | _ => True

/-- No thread but `t` holds an index lock. -/
def Unlocked (s : Cache) (t : Tid) : Prop :=
  ∀ u pu, u ≠ t → s.threads[u]? = some pu → pu.lock = none

theorem HashfindCont.done_inFindcreate (mi : Mount) (np : Node) (k : HashfindCont) :
    (k.done mi np).InFindcreate := by
  cases k
  exacts [trivial, trivial, ⟨mi, np, rfl⟩]

theorem HashfindCont.done_makeRank (mi : Mount) (np : Node) (k : HashfindCont) :
    (k.done mi np).makeRank ≤ 9 := by
  cases k <;> exact Nat.le_of_ble_eq_true rfl

theorem HashfindCont.done_startBudget (mi : Mount) (np : Node) (k : HashfindCont) (n : ℕ) :
    (k.done mi np).startBudget n = 0 := by
  cases k <;> rfl

section Step

variable {s : Cache} {t : Tid} {pc : Pc} {a : List Node}

theorem Unlocked.lock_none (hu : Unlocked s t) (ht : s.threads[t]? = some pc)
    (hl : pc.lock = none) {u : Tid} {pu : Pc} (hpu : s.threads[u]? = some pu) : pu.lock = none := by
  by_cases h : u = t
  · subst h; rw [ht] at hpu; cases hpu; exact hl
  · exact hu u pu h hpu

theorem Unlocked.lockFree (hu : Unlocked s t) (ht : s.threads[t]? = some pc)
    (hl : pc.lock = none) (m : Mount) : s.lockFree m :=
  lockFree_iff.mpr fun _ _ hpu => by simp [hu.lock_none ht hl hpu]

theorem Unlocked.writerFree (hu : Unlocked s t) (ht : s.threads[t]? = some pc)
    (hl : pc.lock = none) (m : Mount) : s.writerFree m :=
  writerFree_iff.mpr fun _ _ hpu => by simp [hu.lock_none ht hl hpu]

/-- In a cache with one thread, no other thread holds a lock. -/
theorem unlocked_of_threads_eq (h : s.threads = [pc]) : Unlocked s 0 := fun u pu hne hu => by
  cases u with
  | zero => exact absurd rfl hne
  | succ u => rw [h, List.getElem?_cons_succ, List.getElem?_nil] at hu; cases hu

theorem Unlocked.setPc (hu : Unlocked s t) (ht : s.threads[t]? = some pc) {X : Cache}
    (hX : X.threads = s.threads) (pc₁ : Pc) : Unlocked (X.setPc t pc₁) t := fun u pu hne h => by
  rw [Cache.setPc, hX, getElem?_setPc ht, if_neg hne] at h
  exact hu u pu hne h

/-- Thread `t` at `pc` takes a step of its call to some `pc₁`: it is not blocked, it stays in
the call, the pass keeps its record of the freelist, the budget is spent only at `start`, and
the thread moves down the order unless it is at `start`. -/
def Advance (a : List Node) (s : Cache) (t : Tid) (pc : Pc) : Prop :=
  ∃ (X : Cache) (pc₁ : Pc), s.runPc t pc = some (X.setPc t pc₁) ∧ X.threads = s.threads ∧
    pc₁.InFindcreate ∧
    pc₁.Popped (if pc.isStart then s.fusefreelist else a) X.fusefreelist ∧
    pc₁.startBudget X.fusefreelist.length + (if pc.isStart then 1 else 0) ≤
      pc.startBudget s.fusefreelist.length ∧
    (pc₁.makeRank < pc.makeRank ∨ pc.isStart = true)

/-- **The step lemma.**  With no other lock holder, every point of a call advances. -/
theorem Unlocked.advance (hu : Unlocked s t) (ht : s.threads[t]? = some pc)
    (hp : pc.InFindcreate) (hr : ∀ r nw, pc ≠ .returned r nw) (hpop : pc.Popped a s.fusefreelist) :
    Advance a s t pc := by
  have hlf := hu.lockFree ht
  have hwf := hu.writerFree ht
  cases pc with
  | returned r nw => exact absurd rfl (hr r nw)
  | fcEnter mi rpath c =>
    -- `start`, or the look-up of `fusefs_node_findcreate` with `fap == NULL`
    cases hf : avlFind s.hdr (s.mount mi).fmiHashAvl rpath.hdr with
    | some np =>
      refine ⟨s, .hfFreef mi np (if c then .found else .lookup),
        by rw [Cache.runPc, if_pos (hwf rfl mi), hf], rfl, trivial, trivial, ?_, ?_⟩ <;>
        cases c
      exacts [Nat.le_refl _, by simp [Pc.startBudget, Pc.isStart], .inl (Nat.le_of_ble_eq_true rfl), .inr rfl]
    | none =>
      cases c
      · exact ⟨s, .returned none false, by rw [Cache.runPc, if_pos (hwf rfl mi), hf]; rfl,
          rfl, trivial, trivial, Nat.le_refl _, .inl (Nat.le_of_ble_eq_true rfl)⟩
      · exact ⟨s, .mkFree mi rpath, by rw [Cache.runPc, if_pos (hwf rfl mi), hf]; rfl,
          rfl, trivial, rfl, by simp [Pc.startBudget, Pc.isStart], .inr rfl⟩
  | hfFreef mi np k =>
    by_cases hfl : np ∈ s.fusefreelist
    · exact ⟨s, .hfLock mi np k, by rw [Cache.runPc, if_pos hfl], rfl, trivial, trivial,
        Nat.le_refl _, .inl (Nat.le_of_ble_eq_true rfl)⟩
    · exact ⟨s, .hfHold mi np k, by rw [Cache.runPc, if_neg hfl], rfl, trivial, trivial,
        Nat.le_refl _, .inl (Nat.le_of_ble_eq_true rfl)⟩
  | hfLock mi np k =>
    by_cases hfl : np ∈ s.fusefreelist
    · exact ⟨(s.snRmfree np).addHeld np, k.done mi np, by rw [Cache.runPc, if_pos hfl], rfl,
        k.done_inFindcreate mi np, by cases k <;> trivial,
        by rw [k.done_startBudget]; exact Nat.le_refl _,
        .inl ((k.done_makeRank mi np).trans_lt (Nat.le_of_ble_eq_true rfl))⟩
    · exact ⟨s, .hfHold mi np k, by rw [Cache.runPc, if_neg hfl], rfl, trivial, trivial,
        Nat.le_refl _, .inl (Nat.le_of_ble_eq_true rfl)⟩
  | hfHold mi np k =>
    exact ⟨(s.vnHold np).addHeld np, k.done mi np, rfl, rfl, k.done_inFindcreate mi np,
      by cases k <;> trivial, by rw [k.done_startBudget]; exact Nat.le_refl _,
      .inl ((k.done_makeRank mi np).trans_lt (Nat.le_of_ble_eq_true rfl))⟩
  | mkFree mi rpath =>
    -- the pop, or a fresh allocation
    cases hfl : s.fusefreelist with
    | nil =>
      exact ⟨s, .mkAlloc mi rpath, by rw [Cache.runPc, hfl], rfl, trivial, trivial,
        Nat.zero_le _, .inl (Nat.le_of_ble_eq_true rfl)⟩
    | cons np rest =>
      by_cases hn : s.nfusenode ≤ s.fusenodenew
      · refine ⟨s.snRmfree np, .mkFlags mi rpath np, by rw [Cache.runPc, hfl]; exact if_pos hn,
          rfl, trivial, ?_, by simp [Pc.startBudget, Pc.isStart, hfl], .inl (Nat.le_of_ble_eq_true rfl)⟩
        simp only [Pc.Popped] at hpop
        simp [Pc.Popped, Pc.isStart, ← hpop, hfl]
      · exact ⟨s, .mkAlloc mi rpath, by rw [Cache.runPc, hfl]; exact if_neg hn, rfl, trivial,
          trivial, Nat.zero_le _, .inl (Nat.le_of_ble_eq_true rfl)⟩
  | mkAlloc mi rpath =>
    exact ⟨s.allocNode.initShell s.nextNode mi, .mkInsert mi rpath s.nextNode, rfl, rfl, trivial,
      trivial, Nat.le_refl _, .inl (Nat.le_of_ble_eq_true rfl)⟩
  | mkFlags mi rpath np =>
    by_cases hh : (s.node np).rHashed
    · exact ⟨s, .mkUnhash mi rpath np, by rw [Cache.runPc, if_pos hh], rfl, trivial, hpop,
        Nat.le_refl _, .inl (Nat.le_of_ble_eq_true rfl)⟩
    · exact ⟨s, .mkInactive mi rpath np, by rw [Cache.runPc, if_neg hh], rfl, trivial, hpop,
        Nat.le_refl _, .inl (Nat.le_of_ble_eq_true rfl)⟩
  | mkUnhash mi rpath np =>
    -- under the victim's index lock: start over, or unlink the victim
    by_cases hv : 1 < (s.node np).vCount
    · exact ⟨s.vnRele np, .fcEnter mi rpath true,
        by rw [Cache.runPc, if_pos (hlf rfl _), if_pos hv], rfl, trivial, hpop,
        Nat.le_refl _, .inl (Nat.le_of_ble_eq_true rfl)⟩
    · exact ⟨s.snRmhashLocked np, .mkInactive mi rpath np,
        by rw [Cache.runPc, if_pos (hlf rfl _), if_neg hv], rfl, trivial, hpop,
        Nat.le_refl _, .inl (Nat.le_of_ble_eq_true rfl)⟩
  | mkInactive mi rpath np =>
    exact ⟨s.snInactive np, .mkReinit mi rpath np, rfl, rfl, trivial, hpop, Nat.le_refl _,
      .inl (Nat.le_of_ble_eq_true rfl)⟩
  | mkReinit mi rpath np =>
    -- start over, or the victim becomes the shell
    by_cases hv : 1 < (s.node np).vCount
    · exact ⟨s.vnRele np, .fcEnter mi rpath true, by rw [Cache.runPc, if_pos hv], rfl,
        trivial, hpop, Nat.le_refl _, .inl (Nat.le_of_ble_eq_true rfl)⟩
    · exact ⟨(s.releaseVfs np).initShell np mi, .mkInsert mi rpath np,
        by rw [Cache.runPc, if_neg hv], rfl, trivial, trivial, Nat.zero_le _,
        .inl (Nat.le_of_ble_eq_true rfl)⟩
  | mkInsert mi rpath np =>
    -- the re-check under the writer lock
    cases hf : avlFind s.hdr (s.mount mi).fmiHashAvl rpath.hdr with
    | some tnp =>
      exact ⟨s, .hfFreef mi tnp (.lostRace np), by rw [Cache.runPc, if_pos (hlf rfl mi), hf],
        rfl, trivial, trivial, Nat.le_refl _, .inl (Nat.le_of_ble_eq_true rfl)⟩
    | none =>
      exact ⟨(s.snAddhashLocked np rpath).addHeld np, .returned (some np) true,
        by rw [Cache.runPc, if_pos (hlf rfl mi), hf], rfl, trivial, trivial,
        Nat.le_refl _, .inl (Nat.le_of_ble_eq_true rfl)⟩
  | lostRet mi tnp =>
    exact ⟨s, .returned (some tnp) false, by rw [Cache.runPc, if_pos (hwf rfl mi)], rfl,
      trivial, trivial, Nat.le_refl _, .inl (Nat.le_of_ble_eq_true rfl)⟩
  | afCount np k =>
    -- the unlocked tests of `fusefs_addfree`
    by_cases hc : (s.node np).rCount = 0
    · exact ⟨s, .afHashed np k, by rw [Cache.runPc, if_pos hc], rfl, hp, trivial,
        Nat.le_refl _, .inl (Nat.le_of_ble_eq_true rfl)⟩
    · exact ⟨s, .afPool np k, by rw [Cache.runPc, if_neg hc], rfl, hp, trivial,
        Nat.le_refl _, .inl (Nat.le_of_ble_eq_true rfl)⟩
  | afHashed np k =>
    by_cases hh : (s.node np).rHashed
    · exact ⟨s, .afOthers np k, by rw [Cache.runPc, if_pos hh], rfl, hp, trivial,
        Nat.le_refl _, .inl (Nat.le_of_ble_eq_true rfl)⟩
    · exact ⟨s, .afDestroy np k, by rw [Cache.runPc, if_neg hh], rfl, hp, trivial,
        Nat.le_refl _, .inl (Nat.le_of_ble_eq_true rfl)⟩
  | afOthers np k =>
    by_cases ho : (s.node np).rError ≠ 0 ∨ (s.mount (s.node np).vVfsp).vfsUnmounted ∨
        s.nfusenode < s.fusenodenew
    · exact ⟨s, .afDestroy np k, by rw [Cache.runPc, if_pos ho], rfl, hp, trivial,
        Nat.le_refl _, .inl (Nat.le_of_ble_eq_true rfl)⟩
    · exact ⟨s, .afPool np k, by rw [Cache.runPc, if_neg ho], rfl, hp, trivial,
        Nat.le_refl _, .inl (Nat.le_of_ble_eq_true rfl)⟩
  | afDestroy np k =>
    by_cases hh : (s.node np).rHashed
    · exact ⟨s, .afUnhash np k, by rw [Cache.runPc, if_pos hh], rfl, hp, trivial,
        Nat.le_refl _, .inl (Nat.le_of_ble_eq_true rfl)⟩
    · exact ⟨s, .afInactive np k, by rw [Cache.runPc, if_neg hh], rfl, hp, trivial,
        Nat.le_refl _, .inl (Nat.le_of_ble_eq_true rfl)⟩
  | afUnhash np k =>
    obtain ⟨mi, tnp, rfl⟩ := hp
    by_cases hv : 1 < (s.node np).vCount
    · exact ⟨s.vnRele np, .lostRet mi tnp,
        by rw [Cache.runPc, if_pos (hlf rfl _), if_pos hv]; rfl, rfl, trivial, trivial,
        Nat.le_refl _, .inl (Nat.le_of_ble_eq_true rfl)⟩
    · exact ⟨s.snRmhashLocked np, .afInactive np (.lostRace mi tnp),
        by rw [Cache.runPc, if_pos (hlf rfl _), if_neg hv], rfl, ⟨mi, tnp, rfl⟩, trivial,
        Nat.le_refl _, .inl (Nat.le_of_ble_eq_true rfl)⟩
  | afInactive np k =>
    exact ⟨s.snInactive np, .afRecheck np k, rfl, rfl, hp, trivial, Nat.le_refl _,
      .inl (Nat.le_of_ble_eq_true rfl)⟩
  | afRecheck np k =>
    obtain ⟨mi, tnp, rfl⟩ := hp
    by_cases hv : 1 < (s.node np).vCount
    · exact ⟨s.vnRele np, .lostRet mi tnp, by rw [Cache.runPc, if_pos hv]; rfl, rfl,
        trivial, trivial, Nat.le_refl _, .inl (Nat.le_of_ble_eq_true rfl)⟩
    · exact ⟨s.snDestroyNode np, .lostRet mi tnp, by rw [Cache.runPc, if_neg hv]; rfl,
        rfl, trivial, trivial, Nat.le_refl _, .inl (Nat.le_of_ble_eq_true rfl)⟩
  | afPool np k =>
    obtain ⟨mi, tnp, rfl⟩ := hp
    by_cases hv : 1 < (s.node np).vCount
    · exact ⟨s.vnRele np, .lostRet mi tnp,
        by rw [Cache.runPc, if_pos (hlf rfl _), if_pos hv]; rfl, rfl, trivial, trivial,
        Nat.le_refl _, .inl (Nat.le_of_ble_eq_true rfl)⟩
    · exact ⟨s.addfreeInsert np, .lostRet mi tnp,
        by rw [Cache.runPc, if_pos (hlf rfl _), if_neg hv]; rfl, rfl, trivial, trivial,
        Nat.le_refl _, .inl (Nat.le_of_ble_eq_true rfl)⟩
  | _ => exact hp.elim

end Step

/-! ## The run -/

section Run

variable {s s₁ : Cache} {t : Tid} {pc : Pc} {a : List Node}

theorem soloStates_returned {r : Option Node} {nw : Bool}
    (ht : s.threads[t]? = some (.returned r nw)) (fuel : ℕ) :
    Cache.soloStates t (fuel + 1) s = [] := by
  simp [Cache.soloStates, ht]

theorem soloStates_runPc (ht : s.threads[t]? = some pc) (h : s.runPc t pc = some s₁) (fuel : ℕ) :
    Cache.soloStates t (fuel + 1) s = s :: Cache.soloStates t fuel s₁ := by
  simp only [Cache.soloStates, ht]
  split
  · rename_i heq; cases heq; simp [Cache.runPc] at h
  · simp [Cache.step, ht, h]

theorem Pc.makeRank_le (pc : Pc) : pc.makeRank ≤ 20 := by
  cases pc <;> exact Nat.le_of_ble_eq_true rfl

theorem Pc.Popped.of_isStart {l : List Node} (h : pc.Popped a l) (hs : pc.isStart = true) :
    a ≠ [] ∧ l = a.tail := by
  cases pc with
  | fcEnter mi rpath c =>
    cases c
    · cases hs
    · exact h
  | _ => simp [Pc.isStart] at hs

/-- **The run lemma.**  From any point of a call with no other lock holder, the solo run
returns; the freelists at the passes through `start` it makes form a chain from `a`, each
the tail of the one before, and there are at most `pc.startBudget` of them. -/
theorem Unlocked.run (hu : Unlocked s t) (ht : s.threads[t]? = some pc) (hp : pc.InFindcreate)
    (hpop : pc.Popped a s.fusefreelist) :
    ∃ fuel s', Cache.solo t fuel s = some s' ∧ (∃ r nw, s'.threads[t]? = some (.returned r nw)) ∧
      (((Cache.soloStates t fuel s).filter (Cache.atStart t)).map Cache.fusefreelist).Chain
        (fun x y => x ≠ [] ∧ y = x.tail) a ∧
      ((Cache.soloStates t fuel s).filter (Cache.atStart t)).length ≤
        pc.startBudget s.fusefreelist.length := by
  generalize hμ : 21 * pc.startBudget s.fusefreelist.length + pc.makeRank = μ
  induction μ using Nat.strong_induction_on generalizing s pc a with
  | _ μ ih =>
  by_cases hret : ∃ r nw, pc = .returned r nw
  · obtain ⟨r, nw, rfl⟩ := hret
    exact ⟨1, s, solo_returned ht 0, ⟨r, nw, ht⟩, by simp [soloStates_returned ht],
      by simp [soloStates_returned ht]⟩
  · push_neg at hret
    obtain ⟨X, pc₁, hrun, hX, hp₁, hpop₁, hb, hr⟩ := hu.advance ht hp hret hpop
    have ht₁ : (X.setPc t pc₁).threads[t]? = some pc₁ :=
      setPc_self (show X.threads[t]? = some pc by rw [hX]; exact ht)
    have hlt : 21 * pc₁.startBudget X.fusefreelist.length + pc₁.makeRank < μ := by
      have := pc₁.makeRank_le
      rw [← hμ]
      split_ifs at hb with hs
      · omega
      · simp only [hs, Bool.false_eq_true, or_false] at hr
        omega
    obtain ⟨fuel, s', hsolo, hret', hchain, hlen⟩ :=
      ih _ hlt (hu.setPc ht hX pc₁) ht₁ hp₁ hpop₁ rfl
    have hstart : Cache.atStart t s = pc.isStart := by simp [Cache.atStart, ht]
    refine ⟨fuel + 1, s', by rw [solo_runPc ht hrun]; exact hsolo, hret', ?_, ?_⟩
    all_goals rw [soloStates_runPc ht hrun, List.filter_cons, hstart]
    · split_ifs at hchain ⊢ with hs
      · exact List.Chain.cons (hpop.of_isStart hs) hchain
      · exact hchain
    · have hfl : (X.setPc t pc₁).fusefreelist = X.fusefreelist := rfl
      rw [hfl] at hlen
      split_ifs at hb ⊢
      · rw [List.length_cons]; omega
      · omega

/-- **`make_fusenode`'s `goto start` ends.**  Run with no other thread holding an index lock,
from any state with `n` nodes on the freelist, a call that reaches `start` returns, and it
passes `start` at most `n + 1` times: the freelist at each pass after the first is the one at
the pass before with its head popped, the head that pass took and never put back. -/
theorem make_fusenode_retries {mi : Mount} {K : Path}
    (ht : s.threads[t]? = some (.fcEnter mi K true)) (hu : Unlocked s t) :
    ∃ fuel s', Cache.solo t fuel s = some s' ∧ (∃ r nw, s'.threads[t]? = some (.returned r nw)) ∧
      ((Cache.soloStates t fuel s).filter (Cache.atStart t)).length ≤
        s.fusefreelist.length + 1 ∧
      (((Cache.soloStates t fuel s).filter (Cache.atStart t)).map Cache.fusefreelist).Chain'
        fun x y => x ≠ [] ∧ y = x.tail := by
  obtain ⟨fuel, s', hsolo, hret, hchain, hlen⟩ :=
    hu.run (a := 0 :: s.fusefreelist) ht trivial ⟨List.cons_ne_nil _ _, rfl⟩
  exact ⟨fuel, s', hsolo, hret, hlen,
    (show List.Chain' _ ((0 :: s.fusefreelist) :: _) from hchain).tail⟩

end Run

/-- Thread 0 at `start` for "a", with node 0 at the head of the freelist and a second reference
to it held by a caller.  The first pass pops node 0, finds `v_count` above one at the recheck
before `fusefs_node_init` and goes back to `start`, where the freelist is empty; the second
pass allocates. -/
def heldHeadA : Cache :=
  { ((Cache.init 1 false 1).setNode 0
      { (Cache.init 1 false 1).node 0 with live := true, vCount := 2 }).setPc 0
      (.fcEnter 0 [97] true) with
    fusefreelist := [0], fusenodenew := 1, nextNode := 1, held := [0] }

theorem make_fusenode_retries_heldHeadA :
    heldHeadA.threads[0]? = some (.fcEnter 0 [97] true) ∧ Unlocked heldHeadA 0 ∧
    ((Cache.soloStates 0 12 heldHeadA).filter (Cache.atStart 0)).map Cache.fusefreelist =
      [[0], []] ∧
    ∃ fuel s', Cache.solo 0 fuel heldHeadA = some s' ∧
      (∃ r nw, s'.threads[0]? = some (.returned r nw)) ∧
      ((Cache.soloStates 0 fuel heldHeadA).filter (Cache.atStart 0)).length ≤
        heldHeadA.fusefreelist.length + 1 ∧
      (((Cache.soloStates 0 fuel heldHeadA).filter (Cache.atStart 0)).map Cache.fusefreelist).Chain'
        fun x y => x ≠ [] ∧ y = x.tail := by
  have ht : heldHeadA.threads[0]? = some (.fcEnter 0 [97] true) := rfl
  have hu : Unlocked heldHeadA 0 :=
    unlocked_of_threads_eq (show heldHeadA.threads = [.fcEnter 0 [97] true] from rfl)
  exact ⟨ht, hu, by decide, make_fusenode_retries ht hu⟩

end FusefsNode
