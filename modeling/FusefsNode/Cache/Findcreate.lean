import FusefsNode.Cache.Reachable

/-!
# fusefs_node_findcreate run alone

A call of `fusefs_node_findcreate` that no other thread interferes with, from any state of
the invariant, returns what its callers rely on (`findcreate_alone_spec`): with `fap == NULL`
the node indexed under the composed key or `NULL`, and otherwise a node linked under the key,
the one indexed there or a new one, holding one new reference for the caller.

`Cache.solo` runs the caller's thread until it returns.  The proof follows `make_fusenode`
step by step (`Alone.runPc_*`, one lemma per atomic step), and its `goto start` loop through
the records of what each point of the loop knows (`AtStart`, `AtInactive`, `AtInsert`):
every pass that starts over has popped the freelist's head, so the loop ends
(`AtStart.insert`, by induction on the freelist's length).
-/

namespace FusefsNode

namespace Cache

/-- Thread `t` runs alone for at most `fuel` steps, until it has returned from the file. -/
def solo (t : Tid) : ℕ → Cache → Option Cache
  | 0, _ => none
  | fuel + 1, s => match s.threads[t]? with
    | some (.returned _ _) => some s
    | _ => (s.step (.run t)).bind (solo t fuel)

end Cache

/-- No thread but `t` is inside the file. -/
def Quiet (s : Cache) (t : Tid) : Prop :=
  ∀ u pu, u ≠ t → s.threads[u]? = some pu → pu.isIdle

/-- Thread `t`, running alone, goes from `s` to `s'`. -/
def SoloPath (t : Tid) (s s' : Cache) : Prop :=
  ∃ n, ∀ fuel, Cache.solo t (fuel + n) s = Cache.solo t fuel s'

/-- Thread `t` is at `pc` in a state of the invariant, and no other thread is inside the
file. -/
structure Alone (s : Cache) (t : Tid) (pc : Pc) : Prop where
  inv : Inv s
  quiet : Quiet s t
  pc : s.threads[t]? = some pc

section Solo

variable {s s₁ s₂ : Cache} {t : Tid} {pc pc' : Pc}

theorem solo_returned {r : Option Node} {nw : Bool} (ht : s.threads[t]? = some (.returned r nw))
    (fuel : ℕ) : Cache.solo t (fuel + 1) s = some s := by
  simp [Cache.solo, ht]

theorem solo_runPc (ht : s.threads[t]? = some pc) (h : s.runPc t pc = some s₁) (fuel : ℕ) :
    Cache.solo t (fuel + 1) s = Cache.solo t fuel s₁ := by
  simp only [Cache.solo, ht]
  split
  · rename_i heq; cases heq; simp [Cache.runPc] at h
  · simp [Cache.step, ht, h]

/-- Running alone keeps the invariant. -/
theorem solo_inv {s' : Cache} : ∀ {fuel s}, Cache.solo t fuel s = some s' → Inv s → Inv s'
  | 0, _, h, _ => by cases h
  | fuel + 1, s, h, hs => by
    simp only [Cache.solo] at h
    split at h
    · cases h; exact hs
    · obtain ⟨s₁, h₁, h⟩ := Option.bind_eq_some.mp h
      exact solo_inv h (hs.step h₁)

theorem SoloPath.refl (t : Tid) (s : Cache) : SoloPath t s s := ⟨0, fun _ => rfl⟩

theorem SoloPath.step (ht : s.threads[t]? = some pc) (h : s.runPc t pc = some s₁)
    (hp : SoloPath t s₁ s₂) : SoloPath t s s₂ := by
  obtain ⟨n, hn⟩ := hp
  exact ⟨n + 1, fun fuel => by rw [← Nat.add_assoc, solo_runPc ht h, hn]⟩

theorem SoloPath.trans (h₁ : SoloPath t s s₁) (h₂ : SoloPath t s₁ s₂) : SoloPath t s s₂ := by
  obtain ⟨n₁, hn₁⟩ := h₁
  obtain ⟨n₂, hn₂⟩ := h₂
  exact ⟨n₂ + n₁, fun fuel => by rw [← Nat.add_assoc, hn₁, hn₂]⟩

/-- A path that ends in a return is a run that returns, given enough fuel. -/
theorem SoloPath.solo_eq {r : Option Node} {nw : Bool} (hp : SoloPath t s s₁)
    (ht : s₁.threads[t]? = some (.returned r nw)) : ∃ fuel, Cache.solo t fuel s = some s₁ := by
  obtain ⟨n, hn⟩ := hp
  exact ⟨1 + n, by rw [hn]; exact solo_returned ht 0⟩

theorem Quiet.setPc (hq : Quiet s t) (ht : s.threads[t]? = some pc) (pc' : Pc) :
    Quiet (s.setPc t pc') t := fun u pu hu h => by
  rw [Cache.setPc, getElem?_setPc ht, if_neg hu] at h
  exact hq u pu hu h

theorem setPc_self (ht : s.threads[t]? = some pc) : (s.setPc t pc').threads[t]? = some pc' := by
  rw [Cache.setPc, getElem?_setPc ht, if_pos rfl]

theorem Alone.lock_none (h : Alone s t pc) (hl : pc.lock = none) {u : Tid} {pu : Pc}
    (hu : s.threads[u]? = some pu) : pu.lock = none := by
  by_cases hut : u = t
  · subst hut; rw [h.pc] at hu; cases hu; exact hl
  · exact (Pc.isIdle_tentative (h.quiet u pu hut hu)).2

theorem Alone.lockFree (h : Alone s t pc) (hl : pc.lock = none) (m : Mount) : s.lockFree m :=
  lockFree_iff.mpr fun _ _ hu => by simp [h.lock_none hl hu]

theorem Alone.writerFree (h : Alone s t pc) (hl : pc.lock = none) (m : Mount) : s.writerFree m :=
  writerFree_iff.mpr fun _ _ hu => by simp [h.lock_none hl hu]

/-- The thread's step from `pc` to `pc'` leaves it alone, in a state of the invariant. -/
theorem Alone.next (h : Alone s t pc) (hr : s.runPc t pc = some (s₁.setPc t pc'))
    (hth : s₁.threads = s.threads) : Alone (s₁.setPc t pc') t pc' := by
  have ht₁ : s₁.threads[t]? = some pc := by rw [hth]; exact h.pc
  refine ⟨h.inv.runPc h.pc hr, fun u pu hu hpu => ?_, setPc_self ht₁⟩
  rw [Cache.setPc, getElem?_setPc ht₁, if_neg hu, hth] at hpu
  exact h.quiet u pu hu hpu

end Solo

/-! ## Looking up the key -/

section Lookup

variable {s : Cache} {t : Tid} {mi : Mount} {K : Path} {c : Bool}

/-- An indexed node is found under a key without NUL exactly when that key is its path. -/
theorem Inv.cmp_eq_zero_iff (hs : Inv s) {m : Mount} {n : Node} (hn : n ∈ (s.mount m).fmiHashAvl)
    (hK : NulFree K) : fusefsNodeCmp K.hdr (s.hdr n) = 0 ↔ (s.node n).nRpath = some K := by
  obtain ⟨-, -, -, -, p, hp, hl⟩ := hs.linked m n hn
  have hh : s.hdr n = p.hdr := by simp [Cache.hdr_apply, hp, hl, Path.hdr]
  rw [hh, fusefsNodeCmp_eq_zero_iff, hp]
  exact ⟨fun h => congrArg some (eq_of_star_eq hK h.symm), fun h => by cases h; rfl⟩

theorem Inv.avlFind_eq_none_iff (hs : Inv s) (hK : NulFree K) :
    avlFind s.hdr (s.mount mi).fmiHashAvl K.hdr = none ↔
      ∀ n ∈ (s.mount mi).fmiHashAvl, (s.node n).nRpath ≠ some K := by
  simp only [avlFind, List.find?_eq_none, decide_eq_true_eq]
  exact forall₂_congr fun n hn => not_congr (hs.cmp_eq_zero_iff hn hK)

theorem Inv.of_avlFind_eq_some (hs : Inv s) (hK : NulFree K) {np : Node}
    (h : avlFind s.hdr (s.mount mi).fmiHashAvl K.hdr = some np) :
    np ∈ (s.mount mi).fmiHashAvl ∧ (s.node np).nRpath = some K :=
  ⟨(avlFind_some h).1, (hs.cmp_eq_zero_iff (avlFind_some h).1 hK).mp (avlFind_some h).2⟩

/-- `sn_hashfind` found `np`: the caller holds one more reference to it, the freelist's or
one added to `v_count`, and nothing else changed. -/
def FoundPost (s s' : Cache) (t : Tid) (np : Node) : Prop :=
  s'.threads[t]? = some (.returned (some np) false) ∧ s'.held = np :: s.held ∧
  s'.fusefreelist = s.fusefreelist.erase np ∧
  s'.node np = { s.node np with
    vCount := (s.node np).vCount + if np ∈ s.fusefreelist then 0 else 1 } ∧
  (∀ n, n ≠ np → s'.node n = s.node n) ∧ s'.mount = s.mount

/-- `sn_hashfind` finding `np`, on the freelist or not. -/
theorem Alone.found (h : Alone s t (.fcEnter mi K c)) {np : Node}
    (hfind : avlFind s.hdr (s.mount mi).fmiHashAvl K.hdr = some np) :
    ∃ s', SoloPath t s s' ∧ FoundPost s s' t np := by
  set k : HashfindCont := if c then .found else .lookup
  have hk : k.done mi np = .returned (some np) false := by cases c <;> rfl
  have h₁ : s.runPc t (.fcEnter mi K c) = some (s.setPc t (.hfFreef mi np k)) := by
    simp [Cache.runPc, h.writerFree rfl, hfind, k]
  have a₁ := h.next h₁ rfl
  by_cases hfl : np ∈ s.fusefreelist
  · have h₂ : (s.setPc t (.hfFreef mi np k)).runPc t (.hfFreef mi np k) =
        some ((s.setPc t (.hfFreef mi np k)).setPc t (.hfLock mi np k)) := by
      simp [Cache.runPc, hfl]
    have a₂ := a₁.next h₂ rfl
    have h₃ : ((s.setPc t (.hfFreef mi np k)).setPc t (.hfLock mi np k)).runPc t (.hfLock mi np k) =
        some (((((s.setPc t (.hfFreef mi np k)).setPc t (.hfLock mi np k)).snRmfree np).addHeld
          np).setPc t (k.done mi np)) := by
      simp [Cache.runPc, hfl]
    refine ⟨_, .step h.pc h₁ (.step a₁.pc h₂ (.step a₂.pc h₃ (.refl _ _))), ?_⟩
    exact ⟨hk ▸ (a₂.next h₃ rfl).pc, rfl, rfl, by simp [hfl], fun _ _ => rfl, rfl⟩
  · have h₂ : (s.setPc t (.hfFreef mi np k)).runPc t (.hfFreef mi np k) =
        some ((s.setPc t (.hfFreef mi np k)).setPc t (.hfHold mi np k)) := by
      simp [Cache.runPc, hfl]
    have a₂ := a₁.next h₂ rfl
    have h₃ : ((s.setPc t (.hfFreef mi np k)).setPc t (.hfHold mi np k)).runPc t (.hfHold mi np k) =
        some (((((s.setPc t (.hfFreef mi np k)).setPc t (.hfHold mi np k)).vnHold np).addHeld
          np).setPc t (k.done mi np)) := rfl
    refine ⟨_, .step h.pc h₁ (.step a₁.pc h₂ (.step a₂.pc h₃ (.refl _ _))), ?_⟩
    refine ⟨hk ▸ (a₂.next h₃ rfl).pc, rfl, (List.erase_of_not_mem hfl).symm, by simp [hfl], ?_, rfl⟩
    intro n hn
    simp [hn]

end Lookup

/-! ## The steps of make_fusenode, alone -/

section Steps

variable {s : Cache} {t : Tid} {mi : Mount} {K : Path} {v : Node}

theorem Alone.runPc_start (h : Alone s t (.fcEnter mi K true))
    (hmiss : avlFind s.hdr (s.mount mi).fmiHashAvl K.hdr = none) :
    s.runPc t (.fcEnter mi K true) = some (s.setPc t (.mkFree mi K)) := by
  simp [Cache.runPc, h.writerFree rfl, hmiss]

theorem Alone.runPc_mkFree_pop (_ : Alone s t (.mkFree mi K)) {rest : List Node}
    (hfl : s.fusefreelist = v :: rest) (hle : s.nfusenode ≤ s.fusenodenew) :
    s.runPc t (.mkFree mi K) = some ((s.snRmfree v).setPc t (.mkFlags mi K v)) := by
  simp [Cache.runPc, hfl, hle]

theorem Alone.runPc_mkFree_alloc (_ : Alone s t (.mkFree mi K))
    (h : ∀ v rest, s.fusefreelist = v :: rest → s.fusenodenew < s.nfusenode) :
    s.runPc t (.mkFree mi K) = some (s.setPc t (.mkAlloc mi K)) := by
  simp only [Cache.runPc]
  split
  · rename_i v rest hfl; rw [if_neg (Nat.not_le.mpr (h v rest hfl))]
  · rfl

theorem Alone.runPc_mkAlloc (_ : Alone s t (.mkAlloc mi K)) :
    s.runPc t (.mkAlloc mi K) =
      some ((s.allocNode.initShell s.nextNode mi).setPc t (.mkInsert mi K s.nextNode)) := rfl

theorem Alone.runPc_mkFlags_hashed (_ : Alone s t (.mkFlags mi K v)) (hh : (s.node v).rHashed) :
    s.runPc t (.mkFlags mi K v) = some (s.setPc t (.mkUnhash mi K v)) := by
  simp [Cache.runPc, hh]

theorem Alone.runPc_mkFlags_unhashed (_ : Alone s t (.mkFlags mi K v))
    (hh : (s.node v).rHashed = false) :
    s.runPc t (.mkFlags mi K v) = some (s.setPc t (.mkInactive mi K v)) := by
  simp [Cache.runPc, hh]

theorem Alone.runPc_mkUnhash_retry (h : Alone s t (.mkUnhash mi K v))
    (hlt : 1 < (s.node v).vCount) :
    s.runPc t (.mkUnhash mi K v) = some ((s.vnRele v).setPc t (.fcEnter mi K true)) := by
  simp only [Cache.runPc, h.lockFree rfl, if_true, if_pos hlt]

theorem Alone.runPc_mkUnhash (h : Alone s t (.mkUnhash mi K v)) (hle : ¬ 1 < (s.node v).vCount) :
    s.runPc t (.mkUnhash mi K v) = some ((s.snRmhashLocked v).setPc t (.mkInactive mi K v)) := by
  simp only [Cache.runPc, h.lockFree rfl, if_true, if_neg hle]

theorem Alone.runPc_mkInactive (_ : Alone s t (.mkInactive mi K v)) :
    s.runPc t (.mkInactive mi K v) = some ((s.snInactive v).setPc t (.mkReinit mi K v)) := rfl

theorem Alone.runPc_mkReinit_retry (_ : Alone s t (.mkReinit mi K v))
    (hlt : 1 < (s.node v).vCount) :
    s.runPc t (.mkReinit mi K v) = some ((s.vnRele v).setPc t (.fcEnter mi K true)) := by
  simp only [Cache.runPc, if_pos hlt]

theorem Alone.runPc_mkReinit (_ : Alone s t (.mkReinit mi K v)) (hle : ¬ 1 < (s.node v).vCount) :
    s.runPc t (.mkReinit mi K v) =
      some (((s.releaseVfs v).initShell v mi).setPc t (.mkInsert mi K v)) := by
  simp only [Cache.runPc, if_neg hle]

theorem Alone.runPc_mkInsert (h : Alone s t (.mkInsert mi K v))
    (hmiss : avlFind s.hdr (s.mount mi).fmiHashAvl K.hdr = none) :
    s.runPc t (.mkInsert mi K v) =
      some (((s.snAddhashLocked v K).addHeld v).setPc t (.returned (some v) true)) := by
  simp only [Cache.runPc, h.lockFree rfl, if_true, hmiss]

end Steps

/-! ## The loop of make_fusenode -/

section Create

variable {s₀ s : Cache} {t : Tid} {mi : Mount} {K : Path} {v np : Node} {j : ℕ}

/-- What `make_fusenode`'s loop keeps of the state `s₀` its call began in: the indexes, none
of which holds a node under `K`, the callers' references and the population; the freelist
has lost its first `j` nodes. -/
structure Kept (s₀ s : Cache) (mi : Mount) (K : Path) (j : ℕ) : Prop where
  index : ∀ m, (s.mount m).fmiHashAvl = (s₀.mount m).fmiHashAvl
  miss : ∀ n ∈ (s.mount mi).fmiHashAvl, (s.node n).nRpath ≠ some K
  popped : s.fusefreelist = s₀.fusefreelist.drop j
  held : s.held = s₀.held
  nextNode : s.nextNode = s₀.nextNode
  fusenodenew : s.fusenodenew = s₀.fusenodenew

/-- `make_fusenode` at `start`. -/
structure AtStart (s₀ s : Cache) (t : Tid) (mi : Mount) (K : Path) : Prop where
  alone : Alone s t (.fcEnter mi K true)
  kept : ∃ j, Kept s₀ s mi K j

/-- `make_fusenode` about to call `sn_inactive` on the victim `np`, the last head it popped:
`np` is in no index, and while the indexes still differ from those of `s₀` the victim holds
no other count. -/
structure AtInactive (s₀ s : Cache) (t : Tid) (mi : Mount) (K : Path) (np : Node) : Prop where
  alone : Alone s t (.mkInactive mi K np)
  index : ∀ m n, n ∈ (s.mount m).fmiHashAvl ↔ n ∈ (s₀.mount m).fmiHashAvl ∧ n ≠ np
  index_eq : 1 < (s.node np).vCount → ∀ m, (s.mount m).fmiHashAvl = (s₀.mount m).fmiHashAvl
  miss : ∀ n ∈ (s.mount mi).fmiHashAvl, (s.node n).nRpath ≠ some K
  popped : ∃ j, s.fusefreelist = s₀.fusefreelist.drop (j + 1) ∧ s₀.fusefreelist[j]? = some np
  held : s.held = s₀.held
  nextNode : s.nextNode = s₀.nextNode
  fusenodenew : s.fusenodenew = s₀.fusenodenew

/-- `make_fusenode` about to link its shell `np`: a fresh node, or the last head it popped. -/
structure AtInsert (s₀ s : Cache) (t : Tid) (mi : Mount) (K : Path) (np : Node) : Prop where
  alone : Alone s t (.mkInsert mi K np)
  index : ∀ m n, n ∈ (s.mount m).fmiHashAvl ↔ n ∈ (s₀.mount m).fmiHashAvl ∧ n ≠ np
  miss : ∀ n ∈ (s.mount mi).fmiHashAvl, (s.node n).nRpath ≠ some K
  vCount : (s.node np).vCount = 1
  popped : ∃ j, s.fusefreelist = s₀.fusefreelist.drop j ∧
    (np = s₀.nextNode ∧ s.fusenodenew = s₀.fusenodenew + 1 ∨
      (∃ i, j = i + 1 ∧ s₀.fusefreelist[i]? = some np) ∧ s.fusenodenew = s₀.fusenodenew)
  held : s.held = s₀.held

/-- The node `np` as `fusefs_node_findcreate` returns it with attributes: of mount `mi`,
linked under `K` in its index, and off the freelist. -/
def Returned (s' : Cache) (mi : Mount) (K : Path) (np : Node) : Prop :=
  (s'.node np).nMount = mi ∧ (s'.node np).nRpath = some K ∧ (s'.node np).nRplen = K.length ∧
    (s'.node np).rHashed ∧ np ∈ (s'.mount mi).fmiHashAvl ∧ np ∉ s'.fusefreelist

/-- `make_fusenode` linked `np` as a new node under `K`: the caller holds its only count; an
index changed only by `np` leaving the one it was in as a freelist victim and entering that of
`mi`; the freelist lost `j` nodes from its head, and `np` is either a fresh allocation,
counted in `fusenodenew`, or the last of those nodes. -/
def Created (s s' : Cache) (t : Tid) (mi : Mount) (np : Node) : Prop :=
  s'.threads[t]? = some (.returned (some np) true) ∧ s'.held = np :: s.held ∧
  (s'.node np).vCount = 1 ∧
  (∀ m n, n ∈ (s'.mount m).fmiHashAvl ↔ n ∈ (s.mount m).fmiHashAvl ∧ n ≠ np ∨ m = mi ∧ n = np) ∧
  ∃ j, s'.fusefreelist = s.fusefreelist.drop j ∧
    (np = s.nextNode ∧ s'.fusenodenew = s.fusenodenew + 1 ∨
      (∃ i, j = i + 1 ∧ s.fusefreelist[i]? = some np) ∧ s'.fusenodenew = s.fusenodenew)

theorem Kept.setPc (h : Kept s₀ s mi K j) (t : Tid) (pc : Pc) : Kept s₀ (s.setPc t pc) mi K j :=
  ⟨h.index, h.miss, h.popped, h.held, h.nextNode, h.fusenodenew⟩

theorem Kept.vnRele (h : Kept s₀ s mi K j) (v : Node) : Kept s₀ (s.vnRele v) mi K j :=
  ⟨h.index, fun n hn => by simpa using h.miss n hn, h.popped, h.held, h.nextNode, h.fusenodenew⟩

/-- Popping the head `v` of the freelist. -/
theorem Kept.pop (h : Kept s₀ s mi K j) {rest : List Node} (hfl : s.fusefreelist = v :: rest) :
    Kept s₀ (s.snRmfree v) mi K (j + 1) ∧ s₀.fusefreelist[j]? = some v := by
  refine ⟨⟨h.index, h.miss, ?_, h.held, h.nextNode, h.fusenodenew⟩, ?_⟩
  · rw [Cache.snRmfree, hfl, List.erase_cons_head, ← List.tail_drop, ← h.popped, hfl]; rfl
  · simpa [← h.popped, hfl] using (List.getElem?_drop s₀.fusefreelist j 0).symm

/-- A victim that was not `RHASHED` is in no index. -/
theorem AtInactive.of_unhashed (a : Alone s t (.mkInactive mi K v)) (h : Kept s₀ s mi K (j + 1))
    (hv : s₀.fusefreelist[j]? = some v) (hh : (s.node v).rHashed = false) :
    AtInactive s₀ s t mi K v := by
  refine ⟨a, fun m n => ?_, fun _ => h.index, h.miss, ⟨j, h.popped, hv⟩, h.held, h.nextNode,
    h.fusenodenew⟩
  rw [← h.index m]
  exact ⟨fun hn => ⟨hn, fun hnv => a.inv.not_indexed hh m (hnv ▸ hn)⟩, And.left⟩

/-- A victim with no other count is unlinked from its own mount's index. -/
theorem AtInactive.of_unhash (a : Alone s t (.mkUnhash mi K v)) (h : Kept s₀ s mi K (j + 1))
    (hv : s₀.fusefreelist[j]? = some v) (hle : ¬ 1 < (s.node v).vCount) :
    AtInactive s₀ ((s.snRmhashLocked v).setPc t (.mkInactive mi K v)) t mi K v := by
  have hs := a.inv
  have hidx : ∀ m n, n ∈ ((s.snRmhashLocked v).setPc t (.mkInactive mi K v) |>.mount m).fmiHashAvl ↔
      n ∈ (s₀.mount m).fmiHashAvl ∧ n ≠ v := by
    intro m n
    rw [← h.index m]
    by_cases hm : m = (s.node v).nMount
    · subst hm; simp [(hs.index_nodup _).mem_erase_iff, and_comm]
    · simp only [Cache.setPc, Cache.snRmhashLocked_eq, if_neg hm]
      exact ⟨fun hn => ⟨hn, fun hnv => hm (hnv ▸ (hs.linked m n hn).2.2.1).symm⟩, And.left⟩
  refine ⟨a.next (a.runPc_mkUnhash hle) rfl, hidx, fun hlt => absurd (by simpa using hlt) hle,
    fun n hn => ?_, ⟨j, h.popped, hv⟩, h.held, h.nextNode, h.fusenodenew⟩
  simpa using h.miss n (by rw [h.index mi]; exact ((hidx mi n).mp hn).1)

theorem AtInactive.ne (h : AtInactive s₀ s t mi K np) {m : Mount} {n : Node}
    (hn : n ∈ (s.mount m).fmiHashAvl) : n ≠ np :=
  ((h.index m n).mp hn).2

/-- With the victim's count its own, `sn_inactive` and `vn_reinit` make it a shell for `mi`. -/
theorem AtInactive.reinit (h : AtInactive s₀ s t mi K np) (hle : ¬ 1 < (s.node np).vCount) :
    ∃ s', SoloPath t s s' ∧ AtInsert s₀ s' t mi K np := by
  have h₁ := h.alone.runPc_mkInactive
  have a₁ := h.alone.next h₁ rfl
  have h₂ := a₁.runPc_mkReinit (by simpa using hle)
  obtain ⟨j, hj, hv⟩ := h.popped
  refine ⟨_, .step h.alone.pc h₁ (.step a₁.pc h₂ (.refl _ _)), a₁.next h₂ rfl,
    fun m n => by simpa using h.index m n, fun n hn => ?_, by simp, ⟨j + 1, by simpa using hj,
      .inr ⟨⟨j, rfl, hv⟩, by simpa using h.fusenodenew⟩⟩, by simpa using h.held⟩
  have hne := h.ne (m := mi) (by simpa using hn)
  simpa [hne] using h.miss n (by simpa using hn)

/-- A victim someone else holds: `make_fusenode` gives up the freelist's count and starts
over. -/
theorem AtInactive.retry (h : AtInactive s₀ s t mi K np) (hlt : 1 < (s.node np).vCount) :
    ∃ s', SoloPath t s s' ∧ AtStart s₀ s' t mi K ∧ s'.fusefreelist = s.fusefreelist := by
  have h₁ := h.alone.runPc_mkInactive
  have a₁ := h.alone.next h₁ rfl
  have h₂ := a₁.runPc_mkReinit_retry (by simpa using hlt)
  obtain ⟨j, hj, -⟩ := h.popped
  refine ⟨_, .step h.alone.pc h₁ (.step a₁.pc h₂ (.refl _ _)), ⟨a₁.next h₂ rfl, j + 1,
    h.index_eq hlt, fun n hn => ?_, hj, h.held, h.nextNode, h.fusenodenew⟩, rfl⟩
  have hne := h.ne (m := mi) hn
  simpa [hne] using h.miss n hn

/-- `kmem_cache_alloc` of a fresh node, made a shell for `mi`. -/
theorem AtInsert.of_alloc (a : Alone s t (.mkAlloc mi K)) (h : Kept s₀ s mi K j) :
    AtInsert s₀ ((s.allocNode.initShell s.nextNode mi).setPc t (.mkInsert mi K s.nextNode)) t mi
      K s.nextNode := by
  have hne : ∀ m n, n ∈ (s.mount m).fmiHashAvl → n ≠ s.nextNode := fun m n hn =>
    (a.inv.lt_nextNode (a.inv.linked m n hn).1).ne
  refine ⟨a.next a.runPc_mkAlloc rfl, fun m n => ?_, fun n hn => ?_, by simp,
    ⟨j, by simpa using h.popped, .inl ⟨h.nextNode, by simp [h.fusenodenew]⟩⟩, by simpa using h.held⟩
  · simp only [Cache.setPc, Cache.initShell_eq, Cache.allocNode_eq]
    rw [← h.index m]
    exact ⟨fun hn => ⟨hn, hne m n hn⟩, And.left⟩
  · simp only [Cache.setPc, Cache.initShell_eq, Cache.allocNode_eq] at hn ⊢
    simpa [hne mi n hn] using h.miss n hn

/-- The re-check under the writer lock misses, and `sn_addhash_locked` links the shell. -/
theorem AtInsert.created (hK : NulFree K) (h : AtInsert s₀ s t mi K np) :
    ∃ s', SoloPath t s s' ∧ Returned s' mi K np ∧ Created s₀ s' t mi np := by
  have hs := h.alone.inv
  have hm : (s.node np).nMount = mi := (pcOk_mkInsert.mp (hs.pcs t _ h.alone.pc)).2.2.1
  have h₁ := h.alone.runPc_mkInsert ((hs.avlFind_eq_none_iff hK).mpr h.miss)
  have hidx : ∀ m n, n ∈ ((s.snAddhashLocked np K).mount m).fmiHashAvl ↔
      n ∈ (s₀.mount m).fmiHashAvl ∧ n ≠ np ∨ m = mi ∧ n = np := by
    intro m n
    by_cases hmi : m = mi
    · subst hmi; simp [hm, h.index]; tauto
    · simp [hm, hmi, h.index]
  obtain ⟨j, hj, hnew⟩ := h.popped
  refine ⟨_, .step h.alone.pc h₁ (.refl _ _), ⟨by simp [hm], by simp, by simp, by simp,
    (hidx mi np).mpr (.inr ⟨rfl, rfl⟩), hs.tentative_not_free h.alone.pc (by simp [Pc.tentative])⟩,
    (h.alone.next h₁ rfl).pc, by simp [h.held], by simp [h.vCount], hidx, j, hj, hnew⟩

/-- One pass of `make_fusenode` from `start`: it reaches `sn_addhash_locked` with a shell, or
starts over with a shorter freelist. -/
theorem AtStart.iterate (hK : NulFree K) (h : AtStart s₀ s t mi K) :
    (∃ np s', SoloPath t s s' ∧ AtInsert s₀ s' t mi K np) ∨
    (∃ s', SoloPath t s s' ∧ AtStart s₀ s' t mi K ∧
      s'.fusefreelist.length < s.fusefreelist.length) := by
  obtain ⟨a, j, hk⟩ := h
  have h₁ := a.runPc_start ((a.inv.avlFind_eq_none_iff hK).mpr hk.miss)
  have a₁ := a.next h₁ rfl
  by_cases hpop : ∃ v rest, s.fusefreelist = v :: rest ∧ s.nfusenode ≤ s.fusenodenew
  · -- the freelist's head `v` is the victim
    obtain ⟨v, rest, hfl, hle⟩ := hpop
    have h₂ := a₁.runPc_mkFree_pop hfl hle
    have a₂ := a₁.next h₂ rfl
    obtain ⟨hk₂, hv⟩ := (hk.setPc t (.mkFree mi K)).pop hfl
    have hlen : (s.snRmfree v).fusefreelist.length < s.fusefreelist.length := by simp [hfl]
    cases hh : (s.node v).rHashed
    · have h₃ := a₂.runPc_mkFlags_unhashed hh
      have hin := AtInactive.of_unhashed (a₂.next h₃ rfl) ((hk₂.setPc _ _).setPc _ _) hv hh
      by_cases hlt : 1 < (s.node v).vCount
      · obtain ⟨s', hp, hst, hfl'⟩ := hin.retry hlt
        exact .inr ⟨s', .step a.pc h₁ (.step a₁.pc h₂ (.step a₂.pc h₃ hp)), hst, hfl' ▸ hlen⟩
      · obtain ⟨s', hp, hi⟩ := hin.reinit hlt
        exact .inl ⟨v, s', .step a.pc h₁ (.step a₁.pc h₂ (.step a₂.pc h₃ hp)), hi⟩
    · have h₃ := a₂.runPc_mkFlags_hashed hh
      have a₃ := a₂.next h₃ rfl
      by_cases hlt : 1 < (s.node v).vCount
      · have h₄ := a₃.runPc_mkUnhash_retry hlt
        exact .inr ⟨_, .step a.pc h₁ (.step a₁.pc h₂ (.step a₂.pc h₃ (.step a₃.pc h₄
          (.refl _ _)))), ⟨a₃.next h₄ rfl, j + 1, ((((hk₂.setPc _ _).setPc _ _).vnRele v).setPc _ _)⟩,
          hlen⟩
      · have h₄ := a₃.runPc_mkUnhash hlt
        obtain ⟨s', hp, hi⟩ :=
          (AtInactive.of_unhash a₃ ((hk₂.setPc _ _).setPc _ _) hv hlt).reinit (by simpa using hlt)
        exact .inl ⟨v, s', .step a.pc h₁ (.step a₁.pc h₂ (.step a₂.pc h₃ (.step a₃.pc h₄ hp))), hi⟩
  · -- a fresh node from `kmem_cache_alloc`
    have h₂ := a₁.runPc_mkFree_alloc fun v rest hfl =>
      Nat.lt_of_not_le fun hle => hpop ⟨v, rest, hfl, hle⟩
    have a₂ := a₁.next h₂ rfl
    have h₃ := a₂.runPc_mkAlloc
    exact .inl ⟨_, _, .step a.pc h₁ (.step a₁.pc h₂ (.step a₂.pc h₃ (.refl _ _))),
      AtInsert.of_alloc a₂ ((hk.setPc _ _).setPc _ _)⟩

/-- `make_fusenode`'s loop ends: each pass that starts over has popped the freelist's head. -/
theorem AtStart.insert (hK : NulFree K) {s : Cache} (h : AtStart s₀ s t mi K) :
    ∃ np s', SoloPath t s s' ∧ AtInsert s₀ s' t mi K np := by
  rcases h.iterate hK with hi | ⟨s', hp, hs', hlt⟩
  · exact hi
  · obtain ⟨np, s'', hp', hi⟩ := hs'.insert hK
    exact ⟨np, s'', hp.trans hp', hi⟩
termination_by s.fusefreelist.length

end Create


/-! ## fusefs_node_findcreate -/

section Findcreate

variable {s : Cache} {t : Tid} {mi : Mount} {K : Path}

/-- What `fusefs_node_findcreate` with the composed key `K` leaves when run alone from `s`.
With `fap == NULL` it returns the node indexed under `K`, with a reference, or `NULL` and
changes nothing.  Otherwise it returns a node `np` linked under `K`: the one indexed there, or
a new one. -/
def FindcreatePost (s s' : Cache) (t : Tid) (mi : Mount) (K : Path) : Fap → Prop
  | .null =>
    (∃ np ∈ (s.mount mi).fmiHashAvl, (s.node np).nRpath = some K ∧ FoundPost s s' t np) ∨
    ((∀ n ∈ (s.mount mi).fmiHashAvl, (s.node n).nRpath ≠ some K) ∧
      s' = s.setPc t (.returned none false))
  | _ => ∃ np, Returned s' mi K np ∧
    ((np ∈ (s.mount mi).fmiHashAvl ∧ (s.node np).nRpath = some K ∧ FoundPost s s' t np) ∨
     ((∀ n ∈ (s.mount mi).fmiHashAvl, (s.node n).nRpath ≠ some K) ∧ Created s s' t mi np))

/-- A node found under `K` is returned as `fusefs_node_findcreate` promises. -/
theorem FoundPost.returned (hs : Inv s) {s' : Cache} {np : Node}
    (hn : np ∈ (s.mount mi).fmiHashAvl) (hp : (s.node np).nRpath = some K)
    (h : FoundPost s s' t np) : Returned s' mi K np := by
  obtain ⟨-, hh, hm, -, p, hp', hl⟩ := hs.linked mi np hn
  obtain ⟨-, -, hfl, hnode, -, hmount⟩ := h
  rw [hp] at hp'; cases hp'
  refine ⟨by simp [hnode, hm], by simp [hnode, hp], by simp [hnode, hl], by simp [hnode, hh],
    hmount ▸ hn, ?_⟩
  rw [hfl]; exact hs.owned.of_append_left.not_mem_erase

/-- `fusefs_node_findcreate` with `fap == NULL`: `sn_hashfind` alone. -/
theorem Alone.lookup (hK : NulFree K) (h : Alone s t (.fcEnter mi K false)) :
    ∃ s', SoloPath t s s' ∧ FindcreatePost s s' t mi K .null := by
  cases hfind : avlFind s.hdr (s.mount mi).fmiHashAvl K.hdr with
  | some np =>
    obtain ⟨hn, hp⟩ := h.inv.of_avlFind_eq_some hK hfind
    obtain ⟨s', hpath, hpost⟩ := h.found hfind
    exact ⟨s', hpath, .inl ⟨np, hn, hp, hpost⟩⟩
  | none =>
    have h₁ : s.runPc t (.fcEnter mi K false) = some (s.setPc t (.returned none false)) := by
      simp [Cache.runPc, h.writerFree rfl, hfind]
    exact ⟨_, .step h.pc h₁ (.refl _ _), .inr ⟨(h.inv.avlFind_eq_none_iff hK).mp hfind, rfl⟩⟩

/-- `fusefs_node_findcreate` with attributes: `sn_hashfind`, then `make_fusenode` if it
missed. -/
theorem Alone.create (hK : NulFree K) (h : Alone s t (.fcEnter mi K true)) (fap : Fap)
    (hfap : fap ≠ .null) : ∃ s', SoloPath t s s' ∧ FindcreatePost s s' t mi K fap := by
  have hpost : ∀ s', (∃ np, Returned s' mi K np ∧ ((np ∈ (s.mount mi).fmiHashAvl ∧
      (s.node np).nRpath = some K ∧ FoundPost s s' t np) ∨ ((∀ n ∈ (s.mount mi).fmiHashAvl,
        (s.node n).nRpath ≠ some K) ∧ Created s s' t mi np))) → FindcreatePost s s' t mi K fap := by
    cases fap <;> first | exact absurd rfl hfap | exact fun _ => id
  cases hfind : avlFind s.hdr (s.mount mi).fmiHashAvl K.hdr with
  | some np =>
    obtain ⟨hn, hp⟩ := h.inv.of_avlFind_eq_some hK hfind
    obtain ⟨s', hpath, hf⟩ := h.found hfind
    exact ⟨s', hpath, hpost s' ⟨np, hf.returned h.inv hn hp, .inl ⟨hn, hp, hf⟩⟩⟩
  | none =>
    have hmiss := (h.inv.avlFind_eq_none_iff hK).mp hfind
    obtain ⟨np, s', hp, hi⟩ :=
      AtStart.insert hK ⟨h, 0, (⟨fun _ => rfl, hmiss, rfl, rfl, rfl, rfl⟩ : Kept s s mi K 0)⟩
    obtain ⟨s'', hp', hret, hcr⟩ := hi.created hK
    exact ⟨s'', hp.trans hp', hpost s'' ⟨np, hret, .inr ⟨hmiss, hcr⟩⟩⟩


theorem FindcreatePost.returns {s' : Cache} {fap : Fap} {pc : Pc}
    (h : FindcreatePost s s' t mi K fap) (ht : s.threads[t]? = some pc) :
    ∃ r nw, s'.threads[t]? = some (.returned r nw) := by
  cases fap
  · rcases h with ⟨np, -, -, hf⟩ | ⟨-, rfl⟩
    · exact ⟨_, _, hf.1⟩
    · exact ⟨_, _, setPc_self ht⟩
  all_goals
    obtain ⟨np, -, ⟨-, -, hf⟩ | ⟨-, hc⟩⟩ := h
    · exact ⟨_, _, hf.1⟩
    · exact ⟨_, _, hc.1⟩

/-- The call's entry changes only the caller's program counter. -/
theorem FindcreatePost.of_enter {s' : Cache} {fap : Fap} {pc : Pc}
    (h : FindcreatePost (s.setPc t pc) s' t mi K fap) : FindcreatePost s s' t mi K fap := by
  cases fap
  · rcases h with h | ⟨hm, rfl⟩
    · exact .inl h
    · exact .inr ⟨hm, by simp [List.set_set]⟩
  all_goals exact h

/-- **`fusefs_node_findcreate` run alone.**  From a state of the invariant in which no other
thread is inside the file, a call whose composed key has no NUL returns, keeps the
invariant, and leaves `FindcreatePost`. -/
theorem findcreate_alone_spec {dirnm name : Path} {sep : UInt8} {fap : Fap} (hs : Inv s)
    (hidle : s.idle t) (hq : Quiet s t) (hK : NulFree (findcreateRpath dirnm sep name)) :
    ∃ fuel s', (s.step (.findcreate t mi dirnm sep name fap)).bind (Cache.solo t fuel) = some s' ∧
      Inv s' ∧ FindcreatePost s s' t mi (findcreateRpath dirnm sep name) fap := by
  obtain ⟨pc, ht, -⟩ := idle_iff.mp hidle
  set K := findcreateRpath dirnm sep name
  have henter : s.step (.findcreate t mi dirnm sep name fap) =
      some (s.setPc t (.fcEnter mi K (fap ≠ .null))) := by
    simp [Cache.step, hidle, K]
  have a : Alone _ t _ := ⟨hs.step henter, hq.setPc ht _, setPc_self ht⟩
  have hrun : ∃ s', SoloPath t (s.setPc t (.fcEnter mi K (fap ≠ .null))) s' ∧
      FindcreatePost (s.setPc t (.fcEnter mi K (fap ≠ .null))) s' t mi K fap := by
    cases fap with
    | null => exact a.lookup hK
    | fattr0 => exact a.create hK _ nofun
    | attrs => exact a.create hK _ nofun
  obtain ⟨s', hp, hpost⟩ := hrun
  obtain ⟨r, nw, hr⟩ := hpost.returns a.pc
  obtain ⟨fuel, hfuel⟩ := hp.solo_eq hr
  exact ⟨fuel, s', by rw [henter]; exact hfuel, solo_inv hfuel a.inv, hpost.of_enter⟩

theorem quiet_of_threads_eq {s : Cache} {pc : Pc} (h : s.threads = [pc]) : Quiet s 0 :=
  fun u pu hu hpu => by
    rw [h] at hpu
    obtain _ | u := u
    · exact absurd rfl hu
    · simp at hpu

/-- Thread 0 creates node 0 under "a" and holds it. -/
def holdA : List Action := [.findcreate 0 0 [] 0 [97] .fattr0, .run 0, .run 0, .run 0, .run 0]

/-- Thread 0 creates node 0 under "a" and releases it: `fusefs_addfree` pools it, indexed. -/
def poolA : List Action := holdA ++ [.release 0 0, .run 0, .run 0, .run 0, .run 0]

/-- Node 0, indexed under "a", alone on the freelist, with no `r_count`. -/
def pooledA : Cache := ((Cache.init 1 false 1).run poolA).getD (Cache.init 1 false 1)

theorem reachable_pooledA : Reachable pooledA :=
  (Reachable.init 1 false 1).run (show (Cache.init 1 false 1).run poolA = some pooledA from rfl)

theorem pooledA_facts : pooledA.threads = [.idle] ∧ (pooledA.mount 0).fmiHashAvl = [0] ∧
    pooledA.fusefreelist = [0] ∧ (pooledA.node 0).rCount = 0 ∧ (pooledA.node 0).vCount = 1 := by
  decide

/-- A call for "b" on the cache of `pooledA`: `make_fusenode` recycles node 0 off the freelist,
unhashing it from "a", and links it under "b". -/
theorem findcreate_alone_spec_pooledA :
    Inv pooledA ∧ pooledA.idle 0 ∧ Quiet pooledA 0 ∧ NulFree (findcreateRpath [] 0 [98]) ∧
    ∃ fuel s', (pooledA.step (.findcreate 0 0 [] 0 [98] .fattr0)).bind (Cache.solo 0 fuel) =
      some s' ∧ Inv s' ∧ FindcreatePost pooledA s' 0 0 (findcreateRpath [] 0 [98]) .fattr0 := by
  have hth := pooledA_facts.1
  have hs := reachable_pooledA.inv
  have hq := quiet_of_threads_eq hth
  have hidle : pooledA.idle 0 := by simp [Cache.idle, hth, Pc.isIdle]
  exact ⟨hs, hidle, hq, by decide, findcreate_alone_spec hs hidle hq (by decide)⟩

end Findcreate

end FusefsNode
