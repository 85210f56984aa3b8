import Mathlib.Logic.Relation

/-!
# The order in which the file takes its locks

Each function of `fusefs_node.c` is reduced to its control flow and its lock operations on
the four kinds of lock the file takes: a mount's index lock `fmi_hash_lk` (as reader or as
writer: the order does not tell them apart), a vnode's `v_lock`, `fusefreelist_lock` and a
node's `r_statelock`.  `make_fusenode`'s `goto start` is a loop whose retries `continue` it.

`Trace p es o` says that running `p` can perform the lock operations `es` and then stop with
outcome `o`; the outcome `stop` covers every prefix of every path, those of loops that never
end included.  `check` runs a body on the set of locks held, requires each lock to be taken
only above every lock held (`Lock.rank`) and each release to be of a held lock, and asks the
branches that meet again to hold the same locks.  `check_sound` says that then every path is
`InOrder`, and `lock_order` applies it to the functions callers enter holding no lock.

A call of code outside the file takes none of these locks, except `VN_HOLD`, which raises
`v_count` under `v_lock`.
-/

namespace FusefsNode

/-- The kinds of lock `fusefs_node.c` takes. -/
inductive Lock
  | fmiHashLk
  | vLock
  | fusefreelistLock
  | rStatelock
  deriving DecidableEq, Repr

/-- The order the file takes its locks in: the index lock first, `r_statelock` last;
`v_lock` and `fusefreelist_lock` are never held together. -/
def Lock.rank : Lock → ℕ
  | .fmiHashLk => 0
  | .vLock | .fusefreelistLock => 1
  | .rStatelock => 2

/-- A lock operation: `mutex_enter` or `rw_enter`, `mutex_exit` or `rw_exit`. -/
inductive Event
  | enter (l : Lock)
  | exit (l : Lock)
  deriving DecidableEq, Repr

/-- The locks held after the operation. -/
def Event.apply (H : List Lock) : Event → List Lock
  | .enter l => l :: H
  | .exit l => H.erase l

/-- The locks held after the operations `es`, from `H`. -/
def heldAfter (H : List Lock) (es : List Event) : List Lock := es.foldl Event.apply H

/-- Each lock is taken above every lock held, and each release is of a held lock. -/
def InOrder : List Lock → List Event → Prop
  | _, [] => True
  | H, .enter l :: es => (∀ h ∈ H, h.rank < l.rank) ∧ InOrder (l :: H) es
  | H, .exit l :: es => l ∈ H ∧ InOrder (H.erase l) es

/-- A function body, reduced to its control flow and its lock operations. -/
inductive Prog
  /-- Code that takes none of the locks. -/
  | skip
  | op (e : Event)
  /-- A call of a function of the file, whose body is `p`. -/
  | call (p : Prog)
  | seq (p q : Prog)
  /-- Either branch of a test. -/
  | alt (p q : Prog)
  /-- A loop, run while its body falls through or `continue`s. -/
  | loop (p : Prog)
  /-- `continue`, or `goto start`. -/
  | cont
  /-- `break`, or the loop's test failing. -/
  | brk
  | ret
  deriving Repr

/-- How a run of a body ends: falling through, at a `continue`, a `break` or a `return`, or
anywhere before (`stop`). -/
inductive Outcome
  | normal
  | cont
  | brk
  | ret
  | stop
  deriving DecidableEq, Repr

/-- `Trace p es o`: running `p` performs the lock operations `es` and ends with `o`. -/
inductive Trace : Prog → List Event → Outcome → Prop
  | skip : Trace .skip [] .normal
  | op (e : Event) : Trace (.op e) [e] .normal
  | call {p : Prog} {es : List Event} {o : Outcome} :
      Trace p es o → o = .normal ∨ o = .ret → Trace (.call p) es .normal
  | callStop {p : Prog} {es : List Event} : Trace p es .stop → Trace (.call p) es .stop
  | seq {p q : Prog} {es₁ es₂ : List Event} {o : Outcome} :
      Trace p es₁ .normal → Trace q es₂ o → Trace (.seq p q) (es₁ ++ es₂) o
  | seqAbrupt {p q : Prog} {es : List Event} {o : Outcome} :
      Trace p es o → o ≠ .normal → Trace (.seq p q) es o
  | altLeft {p q : Prog} {es : List Event} {o : Outcome} : Trace p es o → Trace (.alt p q) es o
  | altRight {p q : Prog} {es : List Event} {o : Outcome} : Trace q es o → Trace (.alt p q) es o
  | loopAgain {p : Prog} {es₁ es₂ : List Event} {o₁ o : Outcome} :
      Trace p es₁ o₁ → o₁ = .normal ∨ o₁ = .cont → Trace (.loop p) es₂ o →
        Trace (.loop p) (es₁ ++ es₂) o
  | loopBrk {p : Prog} {es : List Event} : Trace p es .brk → Trace (.loop p) es .normal
  | loopRet {p : Prog} {es : List Event} : Trace p es .ret → Trace (.loop p) es .ret
  | loopStop {p : Prog} {es : List Event} : Trace p es .stop → Trace (.loop p) es .stop
  | cont : Trace .cont [] .cont
  | brk : Trace .brk [] .brk
  | ret : Trace .ret [] .ret
  | stop (p : Prog) : Trace p [] .stop

/-! ## The check -/

/-- The locks held at each way a body can end; `none` where it cannot end so. -/
structure Exits where
  normal : Option (List Lock)
  cont : Option (List Lock)
  brk : Option (List Lock)
  ret : Option (List Lock)
  deriving DecidableEq, Repr

/-- A body that only falls through, holding `H`. -/
def Exits.ofNormal (H : List Lock) : Exits := ⟨some H, none, none, none⟩

/-- The locks held at outcome `o`; nothing is asked of `stop`. -/
def Exits.get (x : Exits) : Outcome → Option (List Lock)
  | .normal => x.normal
  | .cont => x.cont
  | .brk => x.brk
  | .ret => x.ret
  | .stop => none

/-- Two ways of reaching one point must hold the same locks. -/
def meet : Option (List Lock) → Option (List Lock) → Option (Option (List Lock))
  | none, b => some b
  | a, none => some a
  | some a, some b => if a = b then some (some a) else none

def Exits.meet (x y : Exits) : Option Exits := do
  let normal ← FusefsNode.meet x.normal y.normal
  let cont ← FusefsNode.meet x.cont y.cont
  let brk ← FusefsNode.meet x.brk y.brk
  let ret ← FusefsNode.meet x.ret y.ret
  pure ⟨normal, cont, brk, ret⟩

/-- Run `p` on the set `H` of locks held; `none` when a lock is taken out of order, a lock not
held is released, two branches meet holding different locks, or a loop's body does not come
back to its head holding the locks it started with. -/
def check : Prog → List Lock → Option Exits
  | .skip, H => some (.ofNormal H)
  | .op (.enter l), H => if ∀ h ∈ H, h.rank < l.rank then some (.ofNormal (l :: H)) else none
  | .op (.exit l), H => if l ∈ H then some (.ofNormal (H.erase l)) else none
  | .call p, H => do
    let x ← check p H
    if x.cont = none ∧ x.brk = none then
      let r ← meet x.normal x.ret
      pure ⟨r, none, none, none⟩
    else none
  | .seq p q, H => do
    let x ← check p H
    match x.normal with
    | none => pure x
    | some H₁ => do
      let y ← check q H₁
      Exits.meet { x with normal := none } y
  | .alt p q, H => do
    let x ← check p H
    let y ← check q H
    Exits.meet x y
  | .loop p, H => do
    let x ← check p H
    if (x.normal = none ∨ x.normal = some H) ∧ (x.cont = none ∨ x.cont = some H) then
      pure ⟨x.brk, none, none, x.ret⟩
    else none
  | .cont, H => some ⟨none, some H, none, none⟩
  | .brk, H => some ⟨none, none, some H, none⟩
  | .ret, H => some ⟨none, none, none, some H⟩

/-! ## Soundness -/

theorem meet_left {a b c : Option (List Lock)} (h : meet a b = some c) {v : List Lock}
    (ha : a = some v) : c = some v := by
  subst ha
  cases b with
  | none => simpa [meet] using h.symm
  | some w => simp only [meet] at h; split_ifs at h; simp_all

theorem meet_right {a b c : Option (List Lock)} (h : meet a b = some c) {v : List Lock}
    (hb : b = some v) : c = some v := by
  subst hb
  cases a with
  | none => simpa [meet] using h.symm
  | some w => simp only [meet] at h; split_ifs at h; simp_all

theorem Exits.meet_left {x y z : Exits} (h : x.meet y = some z) {o : Outcome} {v : List Lock}
    (hx : x.get o = some v) : z.get o = some v := by
  simp only [Exits.meet, Option.bind_eq_bind, Option.bind_eq_some, Option.pure_def,
    Option.some.injEq] at h
  obtain ⟨n, hn, c, hc, b, hb, r, hr, rfl⟩ := h
  cases o <;> simp only [Exits.get] at hx ⊢
  · exact FusefsNode.meet_left hn hx
  · exact FusefsNode.meet_left hc hx
  · exact FusefsNode.meet_left hb hx
  · exact FusefsNode.meet_left hr hx
  · cases hx

theorem Exits.meet_right {x y z : Exits} (h : x.meet y = some z) {o : Outcome} {v : List Lock}
    (hy : y.get o = some v) : z.get o = some v := by
  simp only [Exits.meet, Option.bind_eq_bind, Option.bind_eq_some, Option.pure_def,
    Option.some.injEq] at h
  obtain ⟨n, hn, c, hc, b, hb, r, hr, rfl⟩ := h
  cases o <;> simp only [Exits.get] at hy ⊢
  · exact FusefsNode.meet_right hn hy
  · exact FusefsNode.meet_right hc hy
  · exact FusefsNode.meet_right hb hy
  · exact FusefsNode.meet_right hr hy
  · cases hy

@[simp] theorem heldAfter_nil (H : List Lock) : heldAfter H [] = H := rfl

theorem heldAfter_append (H : List Lock) (es₁ es₂ : List Event) :
    heldAfter H (es₁ ++ es₂) = heldAfter (heldAfter H es₁) es₂ := List.foldl_append _ _ _ _

theorem inOrder_append {H : List Lock} {es₁ es₂ : List Event} (h₁ : InOrder H es₁)
    (h₂ : InOrder (heldAfter H es₁) es₂) : InOrder H (es₁ ++ es₂) := by
  induction es₁ generalizing H with
  | nil => exact h₂
  | cons e es₁ ih =>
    cases e with
    | enter l => exact ⟨h₁.1, ih h₁.2 h₂⟩
    | exit l => exact ⟨h₁.1, ih h₁.2 h₂⟩

/-- A body that passes the check performs its lock operations in order on every path, and
ends each complete path holding the locks the check found for that outcome. -/
theorem check_sound {p : Prog} {es : List Event} {o : Outcome} (ht : Trace p es o) :
    ∀ {H : List Lock} {x : Exits}, check p H = some x →
      InOrder H es ∧ (o ≠ .stop → x.get o = some (heldAfter H es)) := by
  induction ht with
  | skip => intro H x hc; cases hc; exact ⟨trivial, fun _ => rfl⟩
  | op e =>
    intro H x hc
    cases e with
    | enter l =>
      simp only [check] at hc; split_ifs at hc with hl; cases hc
      exact ⟨⟨hl, trivial⟩, fun _ => rfl⟩
    | exit l =>
      simp only [check] at hc; split_ifs at hc with hl; cases hc
      exact ⟨⟨hl, trivial⟩, fun _ => rfl⟩
  | call _ ho ih =>
    intro H x hc
    simp only [check, Option.bind_eq_bind, Option.bind_eq_some] at hc
    obtain ⟨xp, hp, hc⟩ := hc
    split_ifs at hc with hw
    simp only [Option.bind_eq_some, Option.pure_def, Option.some.injEq] at hc
    obtain ⟨r, hr, rfl⟩ := hc
    obtain ⟨hord, hget⟩ := ih hp
    refine ⟨hord, fun _ => ?_⟩
    rcases ho with rfl | rfl
    · exact meet_left hr (hget nofun)
    · exact meet_right hr (hget nofun)
  | callStop _ ih =>
    intro H x hc
    simp only [check, Option.bind_eq_bind, Option.bind_eq_some] at hc
    obtain ⟨xp, hp, -⟩ := hc
    exact ⟨(ih hp).1, fun h => absurd rfl h⟩
  | seq _ _ ih₁ ih₂ =>
    intro H x hc
    simp only [check, Option.bind_eq_bind, Option.bind_eq_some] at hc
    obtain ⟨xp, hp, hc⟩ := hc
    obtain ⟨hord₁, hget₁⟩ := ih₁ hp
    rw [show xp.normal = some (heldAfter H _) from hget₁ nofun] at hc
    obtain ⟨y, hq, hm⟩ := Option.bind_eq_some.mp hc
    obtain ⟨hord₂, hget₂⟩ := ih₂ hq
    refine ⟨inOrder_append hord₁ hord₂, fun ho => ?_⟩
    rw [heldAfter_append]
    exact Exits.meet_right hm (hget₂ ho)
  | @seqAbrupt p q es o _ hne ih =>
    intro H x hc
    simp only [check, Option.bind_eq_bind, Option.bind_eq_some] at hc
    obtain ⟨xp, hp, hc⟩ := hc
    obtain ⟨hord, hget⟩ := ih hp
    refine ⟨hord, fun ho => ?_⟩
    have hx : ({ xp with normal := none } : Exits).get o = some (heldAfter H es) := by
      rw [← hget ho]; cases o <;> first | rfl | exact absurd rfl hne
    split at hc
    · cases hc; exact hget ho
    · obtain ⟨y, -, hm⟩ := Option.bind_eq_some.mp hc
      exact Exits.meet_left hm hx
  | altLeft _ ih =>
    intro H x hc
    simp only [check, Option.bind_eq_bind, Option.bind_eq_some] at hc
    obtain ⟨xp, hp, y, -, hm⟩ := hc
    obtain ⟨hord, hget⟩ := ih hp
    exact ⟨hord, fun ho => Exits.meet_left hm (hget ho)⟩
  | altRight _ ih =>
    intro H x hc
    simp only [check, Option.bind_eq_bind, Option.bind_eq_some] at hc
    obtain ⟨xp, -, y, hq, hm⟩ := hc
    obtain ⟨hord, hget⟩ := ih hq
    exact ⟨hord, fun ho => Exits.meet_right hm (hget ho)⟩
  | @loopAgain p es₁ es₂ o₁ o _ ho₁ _ ih₁ ih₂ =>
    intro H x hc
    have hc' := hc
    simp only [check, Option.bind_eq_bind, Option.bind_eq_some] at hc'
    obtain ⟨xp, hp, hc'⟩ := hc'
    split_ifs at hc' with hw
    obtain ⟨hord₁, hget₁⟩ := ih₁ hp
    have hback : heldAfter H es₁ = H := by
      have hx := hget₁ (by rcases ho₁ with rfl | rfl <;> exact nofun)
      rcases ho₁ with rfl | rfl
      · rcases hw.1 with h | h <;> simp only [Exits.get, h] at hx
        · cases hx
        · exact (Option.some.inj hx).symm
      · rcases hw.2 with h | h <;> simp only [Exits.get, h] at hx
        · cases hx
        · exact (Option.some.inj hx).symm
    obtain ⟨hord₂, hget₂⟩ := ih₂ hc
    refine ⟨inOrder_append hord₁ (by rw [hback]; exact hord₂), fun ho => ?_⟩
    rw [heldAfter_append, hback]
    exact hget₂ ho
  | loopBrk _ ih =>
    intro H x hc
    simp only [check, Option.bind_eq_bind, Option.bind_eq_some] at hc
    obtain ⟨xp, hp, hc⟩ := hc
    split_ifs at hc; cases hc
    obtain ⟨hord, hget⟩ := ih hp
    exact ⟨hord, fun _ => hget nofun⟩
  | loopRet _ ih =>
    intro H x hc
    simp only [check, Option.bind_eq_bind, Option.bind_eq_some] at hc
    obtain ⟨xp, hp, hc⟩ := hc
    split_ifs at hc; cases hc
    obtain ⟨hord, hget⟩ := ih hp
    exact ⟨hord, fun _ => hget nofun⟩
  | loopStop _ ih =>
    intro H x hc
    simp only [check, Option.bind_eq_bind, Option.bind_eq_some] at hc
    obtain ⟨xp, hp, -⟩ := hc
    exact ⟨(ih hp).1, fun h => absurd rfl h⟩
  | cont => intro H x hc; cases hc; exact ⟨trivial, fun _ => rfl⟩
  | brk => intro H x hc; cases hc; exact ⟨trivial, fun _ => rfl⟩
  | ret => intro H x hc; cases hc; exact ⟨trivial, fun _ => rfl⟩
  | stop => intro H x _; exact ⟨trivial, fun h => absurd rfl h⟩

/-! ## The functions of the file -/

/-- `p₁; p₂; …; pₙ`. -/
def Prog.seqs : List Prog → Prog
  | [] => .skip
  | [p] => p
  | p :: ps => .seq p (seqs ps)

def Prog.enter (l : Lock) : Prog := .op (.enter l)

def Prog.exit (l : Lock) : Prog := .op (.exit l)

namespace Locking

open Prog Lock

/-- `VN_HOLD`: `v_count` is raised under `v_lock`. -/
def vnHold : Prog := seqs [enter vLock, exit vLock]

/-- `sn_rmfree`: the caller holds `fusefreelist_lock`. -/
def snRmfree : Prog := skip

/-- `sn_inactive`: `r_cred` and `n_rpath` are taken under `r_statelock`. -/
def snInactive : Prog := seqs [enter rStatelock, exit rStatelock]

/-- `sn_addhash_locked`: `RHASHED` is set under `r_statelock`. -/
def snAddhashLocked : Prog := seqs [enter rStatelock, exit rStatelock]

/-- `sn_rmhash_locked`: `RHASHED` is cleared under `r_statelock`. -/
def snRmhashLocked : Prog := seqs [enter rStatelock, exit rStatelock]

/-- `sn_destroy_node`: only code outside the file. -/
def snDestroyNode : Prog := skip

/-- `sn_hashfind`, entered holding the index lock: not found; found on the freelist, taken
off it or found off it on the second test; found off the freelist. -/
def snHashfind : Prog :=
  alt ret
    (alt (seqs [enter fusefreelistLock,
        alt (seqs [call snRmfree, exit fusefreelistLock]) (seqs [exit fusefreelistLock, vnHold])])
      vnHold)

/-- `fusefs_rmhash`. -/
def fusefsRmhash : Prog := seqs [enter fmiHashLk, call snRmhashLocked, exit fmiHashLk]

/-- `fusefs_addfree`: the destroy branch (with its `v_count > 1` returns before and after
`sn_inactive`), or the tail insertion under the writer lock. -/
def fusefsAddfree : Prog :=
  alt
    (seqs [
      alt (seqs [enter fmiHashLk, enter vLock,
          alt (seqs [exit vLock, exit fmiHashLk, ret])
            (seqs [exit vLock, call snRmhashLocked, exit fmiHashLk])])
        skip,
      call snInactive,
      enter vLock,
      alt (seqs [exit vLock, ret]) (exit vLock),
      call snDestroyNode, ret])
    (seqs [enter fmiHashLk, enter vLock,
      alt (seqs [exit vLock, exit fmiHashLk, ret]) (exit vLock),
      enter fusefreelistLock, exit fusefreelistLock, exit fmiHashLk])

/-- `make_fusenode`, entered holding the index lock as reader and returning with it held:
the loop is `start`, which both `v_count > 1` tests jump back to holding the reader lock. -/
def makeFusenode : Prog :=
  loop (seqs [
    call snHashfind,
    alt ret skip,
    exit fmiHashLk,
    enter fusefreelistLock,
    alt
      (seqs [call snRmfree, exit fusefreelistLock,
        alt (seqs [enter fmiHashLk, enter vLock,
            alt (seqs [exit vLock, exit fmiHashLk, enter fmiHashLk, cont])
              (seqs [exit vLock, call snRmhashLocked, exit fmiHashLk])])
          skip,
        call snInactive,
        enter vLock,
        alt (seqs [exit vLock, enter fmiHashLk, cont]) (exit vLock)])
      (exit fusefreelistLock),
    enter fmiHashLk,
    call snHashfind,
    alt (seqs [exit fmiHashLk, call fusefsAddfree, enter fmiHashLk, ret])
      (seqs [call snAddhashLocked, ret])])

/-- `fusefs_node_findcreate`: `sn_hashfind` or `make_fusenode` under the reader lock. -/
def fusefsNodeFindcreate : Prog :=
  seqs [enter fmiHashLk, alt (call snHashfind) (call makeFusenode), exit fmiHashLk]

/-- `fusefs_attrcache_prune`: the walk under the reader lock, which stops at the end of the
tree or at the first path outside `top_np`'s.  The locks `fusefs_attrcache_remove` takes inside
the walk belong to the attribute cache, outside this file, and are left out. -/
def fusefsAttrcachePrune : Prog := seqs [enter fmiHashLk, loop (alt brk skip), exit fmiHashLk]

/-- `fusefs_check_table`: the walk under the reader lock, which skips the root and stops at
the end of the tree or at a busy node. -/
def fusefsCheckTable : Prog :=
  seqs [enter fmiHashLk, loop (alt brk (alt cont (alt brk skip))), exit fmiHashLk]

/-- `fusefs_destroy_table`: the drain under the writer lock, then `fusefs_addfree` on each
node of `rlist`. -/
def fusefsDestroyTable : Prog :=
  seqs [enter fmiHashLk,
    loop (alt brk (seqs [enter fusefreelistLock,
      alt (exit fusefreelistLock)
        (seqs [call snRmfree, exit fusefreelistLock, enter rStatelock, exit rStatelock])])),
    exit fmiHashLk,
    loop (alt brk (call fusefsAddfree))]

/-- `fusefs_node_reclaim`: the loop over the freelist, which holds `fusefreelist_lock` at its
head. -/
def fusefsNodeReclaim : Prog :=
  seqs [enter fusefreelistLock,
    loop (alt brk (seqs [call snRmfree, exit fusefreelistLock,
      alt (seqs [enter fmiHashLk, enter vLock,
          alt (seqs [exit vLock, exit fmiHashLk, enter fusefreelistLock, cont])
            (seqs [exit vLock, call snRmhashLocked, exit fmiHashLk])])
        skip,
      call fusefsAddfree, enter fusefreelistLock])),
    exit fusefreelistLock]

/-- `fusefs_kmem_reclaim`. -/
def fusefsKmemReclaim : Prog := call fusefsNodeReclaim

/-- `fusefs_nget`: `EINVAL`, or `fusefs_node_findcreate` and, in an XATTR directory, the flag
set under `r_statelock`. -/
def fusefsNget : Prog :=
  alt ret (seqs [call fusefsNodeFindcreate, alt (seqs [enter rStatelock, exit rStatelock]) skip])

end Locking

open Locking in
/-- The functions code outside the file calls, holding none of its locks. -/
def entryPoints : List Prog :=
  [fusefsNodeFindcreate, fusefsAddfree, fusefsRmhash, fusefsAttrcachePrune, fusefsCheckTable,
    fusefsDestroyTable, fusefsNget, fusefsKmemReclaim]

theorem entryPoints_check : ∀ p ∈ entryPoints, (check p []).isSome := by decide

/-- Every path of a function called holding no lock takes its locks in order. -/
theorem entryPoints_inOrder {p : Prog} (hp : p ∈ entryPoints) {es : List Event} {o : Outcome}
    (ht : Trace p es o) : InOrder [] es := by
  obtain ⟨x, hx⟩ := Option.isSome_iff_exists.mp (entryPoints_check p hp)
  exact (check_sound ht hx).1

/-! ## The lock-order graph -/

/-- Running `es` from `H`, the thread requests `l` while holding `G`. -/
inductive Requests : List Lock → List Event → Lock → List Lock → Prop
  | now {H : List Lock} {l : Lock} {es : List Event} : Requests H (.enter l :: es) l H
  | later {H G : List Lock} {e : Event} {es : List Event} {l : Lock} :
      Requests (e.apply H) es l G → Requests H (e :: es) l G

theorem Requests.rank_lt {H G : List Lock} {es : List Event} {l : Lock}
    (hr : Requests H es l G) (ho : InOrder H es) : ∀ h ∈ G, h.rank < l.rank := by
  induction hr with
  | now => exact ho.1
  | @later H G e es l _ ih =>
    cases e with
    | enter l' => exact ih ho.2
    | exit l' => exact ih ho.2

/-- The lock-order graph: an edge `a → b` when a path of a function of the file requests `b`
while holding `a`. -/
def OrderEdge (a b : Lock) : Prop :=
  ∃ p ∈ entryPoints, ∃ es o G, Trace p es o ∧ Requests [] es b G ∧ a ∈ G

theorem OrderEdge.rank_lt {a b : Lock} (h : OrderEdge a b) : a.rank < b.rank := by
  obtain ⟨p, hp, es, o, G, ht, hr, ha⟩ := h
  exact hr.rank_lt (entryPoints_inOrder hp ht) a ha

theorem OrderEdge.transGen_rank_lt {a b : Lock} (h : Relation.TransGen OrderEdge a b) :
    a.rank < b.rank := by
  induction h with
  | single h => exact h.rank_lt
  | tail _ h ih => exact Nat.lt_trans ih h.rank_lt

/-- On every path of every function of the file, entered holding none of its locks, the index
lock is requested only holding no lock, `fusefreelist_lock` never holding a `v_lock` or an
`r_statelock`, a `v_lock` never holding `fusefreelist_lock` or an `r_statelock`; so the
lock-order graph has no cycle. -/
theorem lock_order :
    (∀ p ∈ entryPoints, ∀ es o l G, Trace p es o → Requests [] es l G →
      (l = .fmiHashLk → G = []) ∧
      (l = .fusefreelistLock → Lock.vLock ∉ G ∧ Lock.rStatelock ∉ G) ∧
      (l = .vLock → Lock.fusefreelistLock ∉ G ∧ Lock.rStatelock ∉ G)) ∧
    ∀ l, ¬ Relation.TransGen OrderEdge l l := by
  refine ⟨fun p hp es o l G ht hr => ?_, fun l hl => ?_⟩
  · have hlt := hr.rank_lt (entryPoints_inOrder hp ht)
    refine ⟨fun hl => ?_, fun hl => ⟨fun h => ?_, fun h => ?_⟩, fun hl => ⟨fun h => ?_, fun h => ?_⟩⟩
    all_goals subst hl
    · exact List.eq_nil_iff_forall_not_mem.mpr fun h hh => by simpa [Lock.rank] using hlt h hh
    all_goals simpa [Lock.rank] using hlt _ h
  · exact Nat.lt_irrefl _ (OrderEdge.transGen_rank_lt hl)

end FusefsNode
