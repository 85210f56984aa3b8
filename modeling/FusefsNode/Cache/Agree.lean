import FusefsNode.Cache.Lookup

/-!
# Lookups of one path agree

`make_fusenode` builds a node for a path `sn_hashfind` did not find, and links it only after
looking the path up again under the index's writer lock: a call that finds another node
there gives its own to `fusefs_addfree` and returns the other.  So however many calls of
`fusefs_node_findcreate` with attributes for one path interleave, those that have returned
have returned the same node (`findcreate_agree`).

The argument is the one for the winner of any race: a node linked under the path stays
linked while the calls run, and an index holds one node per path (`Inv.eq_of_nRpath_eq`).

## Strategy

* `Cache.Keyed s mi K n`: `n` is linked under `K` in the index of `mi`.  Each update of the
  model that a call makes has a lemma saying how it changes `Keyed`.
* `AgreeOk s mi K pc`: what a thread at `pc` in a call for `K` knows.  The node it found or
  returns is `Keyed`, and held once `sn_hashfind` has its reference; the victim it popped and
  the shell it gives back are not `Keyed`; while it is about to pop a victim, no node under
  `K` is on the freelist.
* `KeyStep`: what a step of such a thread does to the nodes under `K`.  Callers keep their
  references, a node under `K` stays under it, a new one is the stepping thread's own, and
  the freelist gains no node under `K`.  `runPc_agree` is the step lemma of the thread itself,
  `AgreeOk.of_keyStep` the frame lemma of every other.
* `Cache.Racing`: every thread of the race is before or in its call.  `Cache.Racing.step` and
  the induction over the interleaving, `Cache.Racing.run`, keep it.
-/

namespace FusefsNode

/-- `n` is linked under the path `K` in the index of `mi`. -/
def Cache.Keyed (s : Cache) (mi : Mount) (K : Path) (n : Node) : Prop :=
  n ∈ (s.mount mi).fmiHashAvl ∧ (s.node n).nRpath = some K

/-! ## How the updates change `Keyed` -/

section Keyed

variable {s s' : Cache} {mi : Mount} {K : Path} {n v : Node}

/-- An update that keeps the index of `mi` and every path keeps `Keyed`. -/
theorem Cache.keyed_congr (hidx : (s'.mount mi).fmiHashAvl = (s.mount mi).fmiHashAvl)
    (hpath : ∀ n, (s'.node n).nRpath = (s.node n).nRpath) :
    s'.Keyed mi K n ↔ s.Keyed mi K n := by
  rw [Cache.Keyed, Cache.Keyed, hidx, hpath]

/-- An update of one node that is `Keyed` neither before nor after keeps `Keyed`. -/
theorem Cache.keyed_update (hidx : (s'.mount mi).fmiHashAvl = (s.mount mi).fmiHashAvl)
    (hpath : ∀ n, n ≠ v → (s'.node n).nRpath = (s.node n).nRpath)
    (hv : ¬ s.Keyed mi K v) (hv' : ¬ s'.Keyed mi K v) : s'.Keyed mi K n ↔ s.Keyed mi K n := by
  by_cases h : n = v
  · subst h; exact iff_of_false hv' hv
  · rw [Cache.Keyed, Cache.Keyed, hidx, hpath n h]

theorem Cache.keyed_snRmhashLocked (hv : ¬ s.Keyed mi K v) :
    (s.snRmhashLocked v).Keyed mi K n ↔ s.Keyed mi K n := by
  simp only [Cache.Keyed, Cache.snRmhashLocked_eq]
  refine ⟨fun ⟨hn, hp⟩ => ⟨?_, hp⟩, fun ⟨hn, hp⟩ => ⟨?_, hp⟩⟩
  · split_ifs at hn
    exacts [List.mem_of_mem_erase hn, hn]
  · have hne : n ≠ v := by rintro rfl; exact hv ⟨hn, hp⟩
    split_ifs
    exacts [(List.mem_erase_of_ne hne).mpr hn, hn]

theorem Cache.keyed_snInactive (hv : ¬ s.Keyed mi K v) :
    (s.snInactive v).Keyed mi K n ↔ s.Keyed mi K n :=
  Cache.keyed_update rfl (fun n h => by simp [h]) hv (by simp [Cache.Keyed])

theorem Cache.keyed_initShell {m : Mount} (hv : ¬ s.Keyed mi K v) :
    (s.initShell v m).Keyed mi K n ↔ s.Keyed mi K n :=
  Cache.keyed_update (by simp) (fun n h => by simp [h]) hv (by simp [Cache.Keyed])

/-- `sn_addhash_locked` of `v` under `K`, into the index of `mi`. -/
theorem Cache.keyed_snAddhashLocked (hm : (s.node v).nMount = mi) :
    (s.snAddhashLocked v K).Keyed mi K n ↔ s.Keyed mi K n ∨ n = v := by
  by_cases h : n = v
  · subst h; simp [Cache.Keyed, hm]
  · simp [Cache.Keyed, hm, h]

end Keyed

/-! ## What a thread in a call for `K` knows -/

/-- What a thread at `pc`, in a call of `fusefs_node_findcreate` with attributes for the path
`K` in the index of `mi`, knows of the nodes under `K`. -/
def AgreeOk (s : Cache) (mi : Mount) (K : Path) : Pc → Prop
  | .fcEnter m p c => m = mi ∧ p = K ∧ c = true
  | .hfFreef m n k | .hfLock m n k | .hfHold m n k =>
    m = mi ∧ s.Keyed mi K n ∧ match k with
      | .lookup => False
      | .found => True
      | .lostRace sh => ¬ s.Keyed mi K sh
  | .mkFree m p => m = mi ∧ p = K ∧ ∀ n, s.Keyed mi K n → n ∉ s.fusefreelist
  | .mkAlloc m p | .mkInactive m p _ | .mkReinit m p _ | .mkInsert m p _ => m = mi ∧ p = K
  | .mkFlags m p v | .mkUnhash m p v => m = mi ∧ p = K ∧ ¬ s.Keyed mi K v
  | .lostRet m n => m = mi ∧ s.Keyed mi K n ∧ n ∈ s.held
  | .afCount sh k | .afHashed sh k | .afOthers sh k | .afDestroy sh k | .afUnhash sh k
  | .afInactive sh k | .afRecheck sh k | .afPool sh k =>
    ∃ n, k = .lostRace mi n ∧ s.Keyed mi K n ∧ n ∈ s.held ∧ ¬ s.Keyed mi K sh
  | .returned r _ => ∃ n, r = some n ∧ s.Keyed mi K n ∧ n ∈ s.held
  | _ => False

/-- What a step of a thread in a call for `K`, holding `mine` tentatively, does to the nodes
under `K`: callers keep their references, a node under `K` stays under it, a new one is the
thread's own, and the freelist gains no node under `K`. -/
structure KeyStep (mi : Mount) (K : Path) (s s' : Cache) (mine : List Node) : Prop where
  held : ∀ n ∈ s.held, n ∈ s'.held
  keep : ∀ n, s.Keyed mi K n → s'.Keyed mi K n
  new : ∀ n, s'.Keyed mi K n → s.Keyed mi K n ∨ n ∈ mine
  free : ∀ n ∈ s'.fusefreelist, n ∈ s.fusefreelist ∨ ¬ s'.Keyed mi K n

section Frame

variable {s s' : Cache} {mi : Mount} {K : Path} {mine : List Node} {n v : Node}

/-- A step that changes no node under `K`, takes no reference from a caller, and puts on the
freelist only nodes not under `K`. -/
theorem KeyStep.of_iff (hh : ∀ n ∈ s.held, n ∈ s'.held) (hk : ∀ n, s'.Keyed mi K n ↔ s.Keyed mi K n)
    (hf : ∀ n ∈ s'.fusefreelist, n ∈ s.fusefreelist ∨ ¬ s'.Keyed mi K n) : KeyStep mi K s s' mine :=
  ⟨hh, fun n h => (hk n).mpr h, fun n h => .inl ((hk n).mp h), hf⟩

/-- A step that moves no caller's reference, no node under `K` and no node of the freelist. -/
theorem KeyStep.of_congr (hh : s'.held = s.held) (hidx : (s'.mount mi).fmiHashAvl = (s.mount mi).fmiHashAvl)
    (hpath : ∀ n, (s'.node n).nRpath = (s.node n).nRpath) (hf : s'.fusefreelist = s.fusefreelist) :
    KeyStep mi K s s' mine :=
  .of_iff (fun _ h => hh ▸ h) (fun _ => Cache.keyed_congr hidx hpath) fun _ h => .inl (hf ▸ h)

theorem KeyStep.refl : KeyStep mi K s s mine := .of_congr rfl rfl (fun _ => rfl) rfl

/-- `sn_hashfind`'s `sn_rmfree` and hold of a node on the freelist. -/
theorem KeyStep.take : KeyStep mi K s ((s.snRmfree n).addHeld n) mine :=
  .of_iff (fun _ h => .tail _ h) (fun _ => Iff.rfl) fun _ h => .inl (List.mem_of_mem_erase h)

/-- `sn_hashfind`'s `VN_HOLD` of a node off the freelist. -/
theorem KeyStep.hold : KeyStep mi K s ((s.vnHold n).addHeld n) mine :=
  .of_iff (fun _ h => .tail _ h) (fun _ => Cache.keyed_congr rfl fun _ => by simp)
    fun _ h => .inl h

/-- `make_fusenode`'s pop of a victim. -/
theorem KeyStep.pop : KeyStep mi K s (s.snRmfree n) mine :=
  .of_iff (fun _ h => h) (fun _ => Iff.rfl) fun _ h => .inl (List.mem_of_mem_erase h)

theorem KeyStep.vnRele : KeyStep mi K s (s.vnRele n) mine :=
  .of_congr rfl rfl (fun _ => by simp) rfl

theorem KeyStep.rmhash (hv : ¬ s.Keyed mi K v) : KeyStep mi K s (s.snRmhashLocked v) mine :=
  .of_iff (fun _ h => h) (fun _ => Cache.keyed_snRmhashLocked hv) fun _ h => .inl h

theorem KeyStep.inactive (hv : ¬ s.Keyed mi K v) : KeyStep mi K s (s.snInactive v) mine :=
  .of_iff (fun _ h => h) (fun _ => Cache.keyed_snInactive hv) fun _ h => .inl h

/-- `make_fusenode` turns a victim it unlinked into a shell. -/
theorem KeyStep.reinit {m : Mount} (hv : ¬ s.Keyed mi K v) :
    KeyStep mi K s ((s.releaseVfs v).initShell v m) mine :=
  have hr : ∀ n, (s.releaseVfs v).Keyed mi K n ↔ s.Keyed mi K n := fun _ =>
    Cache.keyed_congr (by simp) fun _ => by simp
  .of_iff (fun _ h => h) (fun n => (Cache.keyed_initShell ((hr v).not.mpr hv)).trans (hr n))
    fun _ h => .inl h

/-- `make_fusenode` allocates a fresh node, which no index holds. -/
theorem KeyStep.alloc {m : Mount} (hs : Inv s) : KeyStep mi K s (s.allocNode.initShell s.nextNode m) mine := by
  have hfresh : ¬ s.Keyed mi K s.nextNode := fun h => by
    simpa [hs.fresh s.nextNode le_rfl] using (hs.linked mi _ h.1).1
  have hk : ∀ n, s.allocNode.Keyed mi K n ↔ s.Keyed mi K n := fun _ =>
    Cache.keyed_update rfl (fun n h => by simp [h]) hfresh (by simp [Cache.Keyed])
  exact .of_iff (fun _ h => h) (fun n => (Cache.keyed_initShell ((hk _).not.mpr hfresh)).trans (hk n))
    fun _ h => .inl h

theorem KeyStep.destroy : KeyStep mi K s (s.snDestroyNode n) mine :=
  .of_congr rfl (by simp) (fun _ => by simp) rfl

/-- `fusefs_addfree` puts a node not under `K` on the freelist. -/
theorem KeyStep.pool (hv : ¬ s.Keyed mi K v) : KeyStep mi K s (s.addfreeInsert v) mine :=
  .of_iff (fun _ h => h) (fun _ => Iff.rfl) fun n h => by
    rcases List.mem_append.mp h with h | h
    · exact .inl h
    · rw [List.mem_singleton.mp h]; exact .inr hv

/-- `make_fusenode` links its own shell `v` under `K` and returns it. -/
theorem KeyStep.insert (hm : (s.node v).nMount = mi) (hv : v ∈ mine) :
    KeyStep mi K s ((s.snAddhashLocked v K).addHeld v) mine where
  held _ h := .tail _ h
  keep n h := (Cache.keyed_snAddhashLocked hm).mpr (.inl h)
  new n h := by
    rcases (Cache.keyed_snAddhashLocked hm).mp h with h | rfl
    exacts [.inl h, .inr hv]
  free _ h := .inl h

/-- A node not under `K` and not the stepping thread's own stays not under `K`. -/
theorem KeyStep.not_keyed (hk : KeyStep mi K s s' mine) (hn : ¬ s.Keyed mi K n) (hm : n ∉ mine) :
    ¬ s'.Keyed mi K n := fun h => (hk.new n h).elim hn hm

/-- **The frame lemma.**  A step of another thread in a call for `K` keeps what a thread at
`pc` knows, when `pc` holds none of that thread's nodes and none of them is on the freelist. -/
theorem AgreeOk.of_keyStep {pc : Pc} (h : AgreeOk s mi K pc) (hk : KeyStep mi K s s' mine)
    (hmine : ∀ n ∈ mine, n ∉ pc.tentative) (hfree : ∀ n ∈ mine, n ∉ s.fusefreelist) :
    AgreeOk s' mi K pc := by
  have other : ∀ x, x ∈ pc.tentative → x ∉ mine := fun x hx hm => hmine x hm hx
  cases pc with
  | fcEnter | mkAlloc | mkInactive | mkReinit | mkInsert => exact h
  | hfFreef m n k | hfLock m n k | hfHold m n k =>
    obtain ⟨rfl, hn, hk'⟩ := h
    refine ⟨rfl, hk.keep n hn, ?_⟩
    cases k with
    | lostRace sh => exact hk.not_keyed hk' (other sh (by simp [Pc.tentative]))
    | _ => exact hk'
  | mkFree m p =>
    obtain ⟨rfl, rfl, hb⟩ := h
    refine ⟨rfl, rfl, fun n hn hfl => (hk.free n hfl).elim (fun hfl => ?_) (· hn)⟩
    rcases hk.new n hn with hn | hm
    exacts [hb n hn hfl, hfree n hm hfl]
  | mkFlags m p v | mkUnhash m p v =>
    obtain ⟨rfl, rfl, hv⟩ := h
    exact ⟨rfl, rfl, hk.not_keyed hv (other v (by simp [Pc.tentative]))⟩
  | lostRet m n =>
    obtain ⟨rfl, hn, hh⟩ := h
    exact ⟨rfl, hk.keep n hn, hk.held n hh⟩
  | afCount sh k | afHashed sh k | afOthers sh k | afDestroy sh k | afUnhash sh k
  | afInactive sh k | afRecheck sh k | afPool sh k =>
    obtain ⟨n, rfl, hn, hh, hsh⟩ := h
    exact ⟨n, rfl, hk.keep n hn, hk.held n hh, hk.not_keyed hsh (other sh (by simp [Pc.tentative]))⟩
  | returned r nw =>
    obtain ⟨n, rfl, hn, hh⟩ := h
    exact ⟨n, rfl, hk.keep n hn, hk.held n hh⟩
  | _ => exact h.elim

theorem AgreeOk.setPc {pc : Pc} (h : AgreeOk s mi K pc) (u : Tid) (q : Pc) :
    AgreeOk (s.setPc u q) mi K pc := by
  cases pc <;> exact h

/-- What a thread knows carries over a step that moves nothing it knows about. -/
theorem AgreeOk.of_own {pc : Pc} (h : AgreeOk s mi K pc) (hk : KeyStep mi K s s' []) :
    AgreeOk s' mi K pc :=
  h.of_keyStep hk nofun nofun

/-- `sn_hashfind` returns to its caller holding the node it found under `K`. -/
theorem HashfindCont.agree_done {k : HashfindCont} (hX : ∀ m, s'.Keyed mi K m ↔ s.Keyed mi K m)
    (hh : n ∈ s'.held) (h : AgreeOk s mi K (.hfHold mi n k)) : AgreeOk s' mi K (k.done mi n) := by
  obtain ⟨-, hn, hk⟩ := h
  cases k with
  | lookup => exact hk.elim
  | found => exact ⟨n, rfl, (hX n).mpr hn, hh⟩
  | lostRace sh => exact ⟨n, rfl, (hX n).mpr hn, hh, mt (hX sh).mp hk⟩

end Frame

/-! ## One step -/

section Step

variable {s s' : Cache} {u : Tid} {mi : Mount} {K : Path} {pc : Pc}

/-- A node the thread at `pc` knows to be unlinked is not under `K`. -/
theorem Inv.not_keyed_of_unhashed (hs : Inv s) (ht : s.threads[u]? = some pc) {v : Node}
    (hv : v ∈ pc.unhashed) : ¬ s.Keyed mi K v :=
  fun h => hs.not_indexed ((hs.pcs u pc ht).1 v hv) mi h.1

/-- **The step lemma.**  A thread in a call for `K` steps to a point of the same call: it
keeps what it knows, and its step is a `KeyStep` with its tentative nodes as its own. -/
theorem runPc_agree (hs : Inv s) (hK : NulFree K) (ht : s.threads[u]? = some pc)
    (h : AgreeOk s mi K pc) (hr : s.runPc u pc = some s') :
    ∃ X pc', s' = X.setPc u pc' ∧ X.threads = s.threads ∧ AgreeOk X mi K pc' ∧
      KeyStep mi K s X pc.tentative := by
  cases pc with
  | fcEnter m p c =>
    obtain ⟨rfl, rfl, rfl⟩ := h
    dsimp only [Cache.runPc] at hr
    split_ifs at hr
    split at hr <;> cases hr
    · rename_i n hfind
      exact ⟨s, _, rfl, rfl, ⟨rfl, hs.of_avlFind_eq_some hK hfind, trivial⟩, .refl⟩
    · rename_i hfind
      exact ⟨s, _, rfl, rfl, ⟨rfl, rfl, fun n hn =>
        absurd hn.2 ((hs.avlFind_eq_none_iff hK).mp hfind n hn.1)⟩, .refl⟩
    · exact absurd rfl ‹¬true = true›
  | hfFreef m n k =>
    obtain ⟨rfl, -⟩ := id h
    cases hr
    split_ifs
    exacts [⟨s, _, rfl, rfl, h, .refl⟩, ⟨s, _, rfl, rfl, h, .refl⟩]
  | hfLock m n k =>
    obtain ⟨rfl, -⟩ := id h
    dsimp only [Cache.runPc] at hr
    split_ifs at hr <;> cases hr
    · exact ⟨_, _, rfl, rfl, HashfindCont.agree_done (fun _ => Iff.rfl) (List.mem_cons_self n _) h,
        .take⟩
    · exact ⟨s, _, rfl, rfl, h, .refl⟩
  | hfHold m n k =>
    obtain ⟨rfl, -⟩ := id h
    cases hr
    exact ⟨_, _, rfl, rfl, HashfindCont.agree_done (s := s) (fun _ => Cache.keyed_congr rfl fun _ => by simp)
      (List.mem_cons_self n _) h, .hold⟩
  | mkFree m p =>
    obtain ⟨rfl, rfl, hb⟩ := h
    dsimp only [Cache.runPc] at hr
    split at hr
    · rename_i v rest hfl
      split_ifs at hr <;> cases hr
      · exact ⟨_, _, rfl, rfl, ⟨rfl, rfl, fun hv => hb v hv (by simp [hfl])⟩, .pop⟩
      · exact ⟨s, _, rfl, rfl, ⟨rfl, rfl⟩, .refl⟩
    · cases hr
      exact ⟨s, _, rfl, rfl, ⟨rfl, rfl⟩, .refl⟩
  | mkAlloc m p =>
    cases hr
    exact ⟨_, _, rfl, rfl, h, .alloc hs⟩
  | mkFlags m p v =>
    obtain ⟨rfl, rfl, hv⟩ := h
    cases hr
    split_ifs
    exacts [⟨s, _, rfl, rfl, ⟨rfl, rfl, hv⟩, .refl⟩, ⟨s, _, rfl, rfl, ⟨rfl, rfl⟩, .refl⟩]
  | mkUnhash m p v =>
    obtain ⟨rfl, rfl, hv⟩ := h
    dsimp only [Cache.runPc] at hr
    split_ifs at hr <;> cases hr
    exacts [⟨_, _, rfl, rfl, ⟨rfl, rfl, rfl⟩, .vnRele⟩, ⟨_, _, rfl, rfl, ⟨rfl, rfl⟩, .rmhash hv⟩]
  | mkInactive m p v =>
    cases hr
    exact ⟨_, _, rfl, rfl, h, .inactive (hs.not_keyed_of_unhashed ht (by simp [Pc.unhashed]))⟩
  | mkReinit m p v =>
    obtain ⟨rfl, rfl⟩ := h
    dsimp only [Cache.runPc] at hr
    split_ifs at hr <;> cases hr
    · exact ⟨_, _, rfl, rfl, ⟨rfl, rfl, rfl⟩, .vnRele⟩
    · exact ⟨_, _, rfl, rfl, ⟨rfl, rfl⟩,
        .reinit (hs.not_keyed_of_unhashed ht (by simp [Pc.unhashed]))⟩
  | mkInsert m p v =>
    obtain ⟨rfl, rfl⟩ := h
    obtain ⟨-, hun, hm, -⟩ := pcOk_mkInsert.mp (hs.pcs u _ ht)
    dsimp only [Cache.runPc] at hr
    split_ifs at hr
    split at hr <;> cases hr
    · rename_i tnp hfind
      exact ⟨s, _, rfl, rfl, ⟨rfl, hs.of_avlFind_eq_some hK hfind,
        fun hv => hs.not_indexed hun _ hv.1⟩, .refl⟩
    · exact ⟨_, _, rfl, rfl, ⟨v, rfl, (Cache.keyed_snAddhashLocked hm).mpr (.inr rfl),
        List.mem_cons_self v _⟩, .insert hm (List.mem_singleton_self v)⟩
  | lostRet m n =>
    obtain ⟨rfl, hn, hh⟩ := h
    dsimp only [Cache.runPc] at hr
    split_ifs at hr
    cases hr
    exact ⟨s, _, rfl, rfl, ⟨n, rfl, hn, hh⟩, .refl⟩
  | afCount sh k | afHashed sh k | afOthers sh k | afDestroy sh k =>
    obtain ⟨n, rfl, -⟩ := id h
    cases hr
    split_ifs
    all_goals exact ⟨s, _, rfl, rfl, h, .refl⟩
  | afUnhash sh k =>
    obtain ⟨n, rfl, hn, hh, hsh⟩ := h
    dsimp only [Cache.runPc] at hr
    split_ifs at hr <;> cases hr
    · exact ⟨_, _, rfl, rfl, AgreeOk.of_own (s := s) ⟨rfl, hn, hh⟩ .vnRele, .vnRele⟩
    · exact ⟨_, _, rfl, rfl, AgreeOk.of_own (s := s) ⟨n, rfl, hn, hh, hsh⟩ (.rmhash hsh), .rmhash hsh⟩
  | afInactive sh k =>
    obtain ⟨n, rfl, hn, hh, hsh⟩ := h
    cases hr
    exact ⟨_, _, rfl, rfl, AgreeOk.of_own (s := s) ⟨n, rfl, hn, hh, hsh⟩ (.inactive hsh),
      .inactive hsh⟩
  | afRecheck sh k =>
    obtain ⟨n, rfl, hn, hh, -⟩ := h
    dsimp only [Cache.runPc] at hr
    split_ifs at hr <;> cases hr
    · exact ⟨_, _, rfl, rfl, AgreeOk.of_own (s := s) ⟨rfl, hn, hh⟩ .vnRele, .vnRele⟩
    · exact ⟨_, _, rfl, rfl, AgreeOk.of_own (s := s) ⟨rfl, hn, hh⟩ .destroy, .destroy⟩
  | afPool sh k =>
    obtain ⟨n, rfl, hn, hh, hsh⟩ := h
    dsimp only [Cache.runPc] at hr
    split_ifs at hr <;> cases hr
    · exact ⟨_, _, rfl, rfl, AgreeOk.of_own (s := s) ⟨rfl, hn, hh⟩ .vnRele, .vnRele⟩
    · exact ⟨_, _, rfl, rfl, AgreeOk.of_own (s := s) ⟨rfl, hn, hh⟩ (.pool hsh), .pool hsh⟩
  | idle | returned | checked | rcLoop | rcFlags | rcUnhash | dtEnter | dtDrain | ctEnter
  | ctWalk | ctRead => first | exact h.elim | simp [Cache.runPc] at hr

end Step

/-! ## Any interleaving -/

section Run

variable {s s' : Cache} {T : List Tid} {mi : Mount} {K : Path}

/-- The actions of a race of the threads `T` for the path `K` in the index of `mi`: a thread of
`T` calls `fusefs_node_findcreate` with attributes for a composed path equal to `K`, or takes
its next step. -/
def RaceAction (T : List Tid) (mi : Mount) (K : Path) : Action → Prop
  | .run t => t ∈ T
  | .findcreate t m dirnm sep name fap =>
    t ∈ T ∧ m = mi ∧ findcreateRpath dirnm sep name = K ∧ fap ≠ .null
  | _ => False

instance : DecidablePred (RaceAction T mi K)
  | .run t => inferInstanceAs (Decidable (t ∈ T))
  | .findcreate t m dirnm sep name fap => inferInstanceAs
    (Decidable (t ∈ T ∧ m = mi ∧ findcreateRpath dirnm sep name = K ∧ fap ≠ .null))
  | .drain .. | .release .. | .rmhash .. | .prune .. | .reclaim .. | .destroyTable ..
  | .checkTable .. | .pagerHold .. | .pagerRele .. | .outside .. | .unmount .. => isFalse id

/-- Every thread of `T` is idle before its call, or in (or returned from) its call for `K`. -/
def Cache.Racing (s : Cache) (T : List Tid) (mi : Mount) (K : Path) : Prop :=
  ∀ t ∈ T, ∃ pc, s.threads[t]? = some pc ∧ (pc = .idle ∨ AgreeOk s mi K pc)

/-- **The step lemma of a race.**  Whichever thread of the race steps or calls, every thread
of the race stays before or in its call: the stepping thread by `runPc_agree`, the others by
the frame lemma. -/
theorem Cache.Racing.step (hs : Inv s) (hK : NulFree K) (hT : s.Racing T mi K) {a : Action}
    (ha : RaceAction T mi K a) (h : s.step a = some s') : s'.Racing T mi K := by
  cases a with
  | run u =>
    obtain ⟨pu, hu, rfl | hau⟩ := hT u ha
    · rw [Cache.step_run hu] at h; cases h
    obtain ⟨X, pu', rfl, hX, hau', hk⟩ := runPc_agree hs hK hu hau ((Cache.step_run hu).symm.trans h)
    have hu' : X.threads[u]? = some pu := hX ▸ hu
    intro t ht
    by_cases htu : t = u
    · subst htu; exact ⟨pu', setPc_self hu', .inr (hau'.setPc _ _)⟩
    obtain ⟨pt, hpt, hok⟩ := hT t ht
    refine ⟨pt, by rw [Cache.setPc, getElem?_setPc hu', if_neg htu, hX, hpt], hok.imp id fun h => ?_⟩
    exact (h.of_keyStep hk (fun _ h₁ h₂ => hs.tentative_disjoint hu hpt (Ne.symm htu) h₁ h₂)
      fun _ hn => hs.tentative_not_free hu hn).setPc u pu'
  | findcreate u m dirnm sep name fap =>
    obtain ⟨-, rfl, rfl, hfap⟩ := ha
    dsimp only [Cache.step] at h
    split_ifs at h with hi
    cases h
    obtain ⟨pu, hu, -⟩ := idle_iff.mp hi
    intro t ht
    by_cases htu : t = u
    · subst htu; exact ⟨_, setPc_self hu, .inr ⟨rfl, rfl, decide_eq_true hfap⟩⟩
    obtain ⟨pt, hpt, hok⟩ := hT t ht
    exact ⟨pt, by rw [Cache.setPc, getElem?_setPc hu, if_neg htu, hpt], hok.imp id (·.setPc u _)⟩
  | _ => exact ha.elim

/-- **The run lemma of a race.**  Along any interleaving of the race's calls and steps, every
thread of the race stays before or in its call. -/
theorem Cache.Racing.run (hK : NulFree K) : ∀ {s s' : Cache} {as : List Action}, Inv s →
    s.Racing T mi K → (∀ x ∈ as, RaceAction T mi K x) → s.run as = some s' → s'.Racing T mi K
  | _, _, [], _, hT, _, h => by cases h; exact hT
  | _, _, x :: as, hs, hT, hxs, h => by
    obtain ⟨s₁, h₁, hrest⟩ := Option.bind_eq_some.mp h
    exact Cache.Racing.run hK (hs.step h₁) (hT.step hs hK (hxs x (.head _)) h₁)
      (fun y hy => hxs y (.tail _ hy)) hrest

/-- **Lookups of one path agree.**  Any number of threads, idle in a state of the invariant,
call `fusefs_node_findcreate` with attributes for the same composed path, and their calls and
steps interleave in any order.  Any two of them that have returned have returned the same
node, held and linked under the path: `make_fusenode`'s re-check under the writer lock builds
no second node for the path, and no call unlinks the node another returns. -/
theorem findcreate_agree {as : List Action} {a b : Tid} {ra rb : Option Node} {wa wb : Bool}
    (hs : Inv s) (hK : NulFree K) (hidle : ∀ t ∈ T, s.threads[t]? = some .idle)
    (has : ∀ x ∈ as, RaceAction T mi K x) (hrun : s.run as = some s') (ha : a ∈ T) (hb : b ∈ T)
    (hra : s'.threads[a]? = some (.returned ra wa)) (hrb : s'.threads[b]? = some (.returned rb wb)) :
    ∃ n, ra = some n ∧ rb = some n ∧ s'.Keyed mi K n ∧ n ∈ s'.held := by
  have hT := Cache.Racing.run hK hs (fun t ht => ⟨_, hidle t ht, .inl rfl⟩) has hrun
  obtain ⟨pa, ha', hka⟩ := hT a ha
  obtain ⟨pb, hb', hkb⟩ := hT b hb
  rw [hra, Option.some_inj] at ha'
  rw [hrb, Option.some_inj] at hb'
  subst ha' hb'
  obtain ⟨⟨⟩⟩ | ⟨na, rfl, hna, hha⟩ := hka
  obtain ⟨⟨⟩⟩ | ⟨nb, rfl, hnb, -⟩ := hkb
  obtain rfl := (hs.run hrun).eq_of_nRpath_eq hK hna.1 hnb.1 hna.2 hnb.2
  exact ⟨na, rfl, rfl, hna, hha⟩

/-- Three threads of a fresh cache race for "a": thread 0 links its shell first, thread 1
finds it at its re-check, gives its own shell to `fusefs_addfree` and returns it, and thread 2,
calling with the path split as directory "a" and an empty name, finds it at once. -/
def raceABC : List Action :=
  [.findcreate 0 0 [] 0 [97] .fattr0, .findcreate 1 0 [] 0 [97] .attrs,
    .run 0, .run 0, .run 0, .run 1, .run 1, .run 1, .run 0] ++ List.replicate 9 (.run 1) ++
  [.findcreate 2 0 [97] 0 [] .attrs, .run 2, .run 2, .run 2]

/-- The state after `raceABC`. -/
def racedABC : Cache := ((Cache.init 5 false 3).run raceABC).getD (Cache.init 5 false 3)

theorem findcreate_agree_raceABC :
    Inv (Cache.init 5 false 3) ∧ racedABC.threads[1]? = some (.returned (some 0) false) ∧
      racedABC.threads[2]? = some (.returned (some 0) false) ∧
      ∃ n, some 0 = some n ∧ some 0 = some n ∧ racedABC.Keyed 0 [97] n ∧ n ∈ racedABC.held := by
  have hs := inv_init 5 false 3
  have hK : NulFree [97] := by decide
  have hidle : ∀ t ∈ [0, 1, 2], (Cache.init 5 false 3).threads[t]? = some .idle := by decide
  have has : ∀ x ∈ raceABC, RaceAction [0, 1, 2] 0 [97] x := by decide
  have hrun : (Cache.init 5 false 3).run raceABC = some racedABC := rfl
  have hra : racedABC.threads[1]? = some (.returned (some 0) false) := rfl
  have hrb : racedABC.threads[2]? = some (.returned (some 0) false) := rfl
  exact ⟨hs, hra, hrb, findcreate_agree hs hK hidle has hrun (by decide) (by decide) hra hrb⟩

end Run

end FusefsNode
