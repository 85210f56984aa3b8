import Mathlib.Logic.Function.Basic
import Mathlib.Data.List.Nodup

/-!
# The freelist: circular doubly linked list against a queue

`fusefreelist` points at the oldest node of a circular list threaded through the nodes'
`r_freef` (forward) and `r_freeb` (backward) links.  Two pieces of code touch the links, both
under `fusefreelist_lock`: the tail insertion at the end of `fusefs_addfree`
(`addfreeLink`) and `sn_rmfree`.

The abstract freelist is a queue `q`, oldest first.  `Represents L q` says the links are
exactly the cyclic successor and predecessor functions of `q` and that the head pointer is
the first element of `q`.  The file proves

* `represents_addfreeLink`: the tail insertion appends to `q`;
* `represents_snRmfree`: `sn_rmfree` erases from `q`;
* `freelistWalk_eq`: following `r_freef` from `fusefreelist` until the head comes round
  again lists `q`;

and assembles them in `freelist_refines_queue` over every sequence of the operations the
file performs.  The cyclic successor is `cnext q`, the wrap-around target of the last node
being the first; the predecessor `cprev q` is the successor in the reversed list.
-/

namespace FusefsNode

open Function

variable {α : Type} [DecidableEq α]

/-- The freelist pointers: `fusefreelist` and every node's `r_freef` and `r_freeb`. -/
structure FreeLinks (α : Type) where
  fusefreelist : Option α
  rFreef : α → Option α
  rFreeb : α → Option α

/-- `fusefreelist = NULL` and every link `NULL`: the state after `fusefs_subrinit`. -/
def FreeLinks.empty : FreeLinks α := ⟨none, fun _ => none, fun _ => none⟩

/-- The tail insertion at the end of `fusefs_addfree` (lines 579-588). -/
def addfreeLink (L : FreeLinks α) (np : α) : FreeLinks α :=
  match L.fusefreelist with
  | none => ⟨some np, update L.rFreef np (some np), update L.rFreeb np (some np)⟩
  | some head =>
    -- np->r_freef = fusefreelist; np->r_freeb = fusefreelist->r_freeb;
    let f₁ := update L.rFreef np (some head)
    let b₁ := update L.rFreeb np (L.rFreeb head)
    -- fusefreelist->r_freeb->r_freef = np; fusefreelist->r_freeb = np;
    let f₂ := match b₁ head with
      | some last => update f₁ last (some np)
      | none => f₁
    ⟨some head, f₂, update b₁ head (some np)⟩

/-- `sn_rmfree`. -/
def snRmfree (L : FreeLinks α) (np : α) : FreeLinks α :=
  let head := if L.fusefreelist = some np then
      (if L.rFreef np = some np then none else L.rFreef np)
    else L.fusefreelist
  -- np->r_freeb->r_freef = np->r_freef;
  let f₁ := match L.rFreeb np with
    | some prev => update L.rFreef prev (L.rFreef np)
    | none => L.rFreef
  -- np->r_freef->r_freeb = np->r_freeb;
  let b₁ := match f₁ np with
    | some next => update L.rFreeb next (L.rFreeb np)
    | none => L.rFreeb
  -- np->r_freef = np->r_freeb = NULL;
  ⟨head, update f₁ np none, update b₁ np none⟩

/-! ## Cyclic successor and predecessor -/

/-- The element after `n` in `l`, where the element after the last one is `first`. -/
def nextIn (first : α) : List α → α → Option α
  | [], _ => none
  | a :: l, n => if n = a then some (l.headD first) else nextIn first l n

/-- The cyclic successor in `q`. -/
def cnext : List α → α → Option α
  | [], _ => none
  | a :: l, n => nextIn a (a :: l) n

/-- The cyclic predecessor in `q`: the successor in the reversed list. -/
def cprev (q : List α) : α → Option α := cnext q.reverse

/-- The links represent the queue `q`. -/
structure Represents (L : FreeLinks α) (q : List α) : Prop where
  nodup : q.Nodup
  head : L.fusefreelist = q.head?
  freef : L.rFreef = cnext q
  freeb : L.rFreeb = cprev q

theorem nextIn_eq_none {first : α} {l : List α} {n : α} (hn : n ∉ l) :
    nextIn first l n = none := by
  induction l with
  | nil => rfl
  | cons a l ih =>
    simp only [List.mem_cons, not_or] at hn
    simp [nextIn, hn.1, ih hn.2]

theorem nextIn_append (first : α) (l₁ l₂ : List α) (n : α) :
    nextIn first (l₁ ++ l₂) n =
      if n ∈ l₁ then nextIn (l₂.headD first) l₁ n else nextIn first l₂ n := by
  induction l₁ with
  | nil => simp
  | cons a l ih =>
    rw [List.cons_append, nextIn]
    by_cases hna : n = a
    · subst hna; cases l <;> simp [nextIn]
    · simp [hna, ih, nextIn]

/-- Only the last element's successor depends on the wrap-around target. -/
theorem nextIn_first {f g : α} {l : List α} (hl : l.Nodup) (n : α) :
    nextIn f l n = if l.getLast? = some n then some f else nextIn g l n := by
  induction l with
  | nil => simp [nextIn]
  | cons a l ih =>
    rw [List.nodup_cons] at hl
    by_cases hna : n = a
    · subst hna
      cases l with
      | nil => simp [nextIn]
      | cons b l =>
        have hlast : (b :: l).getLast? ≠ some n := fun h => hl.1 (List.mem_of_getLast?_eq_some h)
        simp [nextIn, List.getLast?_cons_cons, hlast]
    · cases l with
      | nil => simp [nextIn, hna, Ne.symm hna]
      | cons b l =>
        have := ih hl.2
        simp only [nextIn, hna, if_false, List.getLast?_cons_cons] at this ⊢
        exact this

theorem cnext_eq_none {q : List α} {n : α} (hn : n ∉ q) : cnext q n = none := by
  cases q with
  | nil => rfl
  | cons a l => exact nextIn_eq_none hn

theorem cnext_cons_self (a : α) (l : List α) : cnext (a :: l) a = some (l.headD a) := by
  simp [cnext, nextIn]

/-- The successor of an element of a duplicate-free queue: the next one, or the first. -/
theorem cnext_of_append {c a : α} {l l₁ l₂ : List α} (hq : (c :: l).Nodup)
    (h : c :: l = l₁ ++ a :: l₂) : cnext (c :: l) a = some (l₂.headD c) := by
  have ha : a ∉ l₁ := fun hm =>
    List.disjoint_of_nodup_append (h ▸ hq) hm (List.mem_cons_self _ _)
  show nextIn c (c :: l) a = _
  rw [h, nextIn_append, if_neg ha]
  simp [nextIn]

theorem mem_of_cnext_eq_some {q : List α} {n m : α} (h : cnext q n = some m) : n ∈ q := by
  by_contra hn; rw [cnext_eq_none hn] at h; cases h

theorem mem_of_nextIn_eq_some {f : α} {l : List α} {n m : α} (h : nextIn f l n = some m) :
    m ∈ l ∨ m = f := by
  induction l with
  | nil => cases h
  | cons a l ih =>
    unfold nextIn at h
    split_ifs at h
    · cases h; cases l <;> simp
    · rcases ih h with h | h <;> simp [h]

/-- A successor is a member of the queue. -/
theorem mem_of_cnext_eq_some' {q : List α} {n m : α} (h : cnext q n = some m) : m ∈ q := by
  cases q with
  | nil => cases h
  | cons a l => rcases mem_of_nextIn_eq_some h with h | rfl <;> simp [h]

/-- Prepending: the old last element now wraps round to the new first one. -/
theorem cnext_cons {x : α} {r : List α} (hr : r.Nodup) (n : α) :
    cnext (x :: r) n =
      if n = x then some (r.headD x) else if r.getLast? = some n then some x else cnext r n := by
  show nextIn x (x :: r) n = _
  by_cases hnx : n = x
  · simp [nextIn, hnx]
  · cases r with
    | nil => simp [nextIn, hnx, cnext]
    | cons b r => simp only [nextIn, hnx, if_false]; exact nextIn_first hr n

/-- Appending: the old last element now points to the new one, which wraps round. -/
theorem cnext_append_singleton {q : List α} {x : α} (hq : (q ++ [x]).Nodup) (n : α) :
    cnext (q ++ [x]) n =
      if n = x then some (q.headD x) else if q.getLast? = some n then some x else cnext q n := by
  have hxq : x ∉ q := fun h => List.disjoint_of_nodup_append hq h (List.mem_singleton_self x)
  cases q with
  | nil => simp [cnext, nextIn]
  | cons a l =>
    have hl := (List.nodup_append.mp hq).1
    show nextIn a ((a :: l) ++ [x]) n = _
    rw [nextIn_append, nextIn_first (g := a) hl n]
    by_cases hn : n ∈ a :: l
    · have hnx : n ≠ x := fun h => hxq (h ▸ hn)
      simp [hn, hnx, cnext]
    · have hlast : (a :: l).getLast? ≠ some n := fun h => hn (List.mem_of_getLast?_eq_some h)
      by_cases hnx : n = x
      · subst hnx; simp [hn, nextIn]
      · simp [hn, hnx, hlast, nextIn, cnext_eq_none hn]

/-- Moving the first element to the end changes no link of a cycle. -/
theorem cnext_rotate_one {a : α} {l : List α} (h : (a :: l).Nodup) :
    cnext (l ++ [a]) = cnext (a :: l) := by
  have h' : (l ++ [a]).Nodup := List.nodup_append_comm.mp (by simpa using h)
  funext n
  rw [cnext_append_singleton h', cnext_cons (List.nodup_cons.mp h).2]

/-- Successors do not depend on which element of the cycle comes first. -/
theorem cnext_rotate {l₁ l₂ : List α} (h : (l₁ ++ l₂).Nodup) :
    cnext (l₁ ++ l₂) = cnext (l₂ ++ l₁) := by
  induction l₁ generalizing l₂ with
  | nil => simp
  | cons a l ih =>
    have h₀ : (a :: (l ++ l₂)).Nodup := by simpa using h
    have h₁ : (l ++ (l₂ ++ [a])).Nodup := List.Perm.nodup_iff
      (by rw [← List.append_assoc]; exact (List.perm_append_singleton _ _).symm) |>.mp h₀
    rw [List.cons_append, ← cnext_rotate_one h₀, List.append_assoc, ih h₁]
    simp

/-- Removing the first element: its predecessor takes over its successor. -/
theorem cnext_of_cons_erase {np : α} {r : List α} (h : (np :: r).Nodup) (n : α) :
    cnext r n = if n = np then none
      else if cnext (np :: r) n = some np then cnext (np :: r) np else cnext (np :: r) n := by
  have hnp := (List.nodup_cons.mp h).1
  rw [cnext_cons (List.nodup_cons.mp h).2, cnext_cons (List.nodup_cons.mp h).2]
  by_cases hn : n = np
  · subst hn; simp [cnext_eq_none hnp]
  · simp only [hn, if_false, if_true]
    by_cases hl : r.getLast? = some n
    · cases r with
      | nil => simp at hl
      | cons b r =>
        have hne : b :: r ≠ [] := List.cons_ne_nil _ _
        have hsplit := (List.dropLast_append_getLast hne).symm
        have hl' := hl
        rw [List.getLast?_eq_getLast _ hne, Option.some_inj] at hl
        rw [hl] at hsplit
        simp [hl', cnext_of_append (List.nodup_cons.mp h).2 hsplit, cnext_cons_self]
    · simp only [hl, if_false]
      split_ifs with hc
      · exact absurd (mem_of_cnext_eq_some' hc) hnp
      · rfl

/-- `sn_rmfree`'s abstract effect on the successors: the predecessor of the removed node takes
over its successor. -/
theorem cnext_erase {q : List α} (hq : q.Nodup) {np : α} (hnp : np ∈ q) (n : α) :
    cnext (q.erase np) n = if n = np then none
      else if cnext q n = some np then cnext q np else cnext q n := by
  obtain ⟨l₁, l₂, rfl⟩ := List.append_of_mem hnp
  have hnp₁ : np ∉ l₁ := fun h => List.disjoint_of_nodup_append hq h (List.mem_cons_self _ _)
  have hrot : (np :: (l₂ ++ l₁)).Nodup :=
    List.Perm.nodup_iff (List.perm_append_comm.trans (by simp)) |>.mp hq
  rw [List.erase_append_right _ hnp₁, List.erase_cons_head,
    cnext_rotate (List.nodup_cons.mp (List.nodup_middle.mp hq)).2, cnext_of_cons_erase hrot n]
  have : cnext (np :: (l₂ ++ l₁)) = cnext (l₁ ++ np :: l₂) := by
    rw [← List.cons_append, cnext_rotate (by simpa using hrot)]
  rw [this]

/-! ## Predecessors -/

theorem cprev_rotate {l₁ l₂ : List α} (h : (l₁ ++ l₂).Nodup) :
    cprev (l₁ ++ l₂) = cprev (l₂ ++ l₁) := by
  unfold cprev
  rw [List.reverse_append, List.reverse_append,
    cnext_rotate (by rw [← List.reverse_append]; exact List.nodup_reverse.mpr h)]

theorem cprev_append_singleton {q : List α} {x : α} (hq : (q ++ [x]).Nodup) (n : α) :
    cprev (q ++ [x]) n =
      if n = x then some (q.getLast?.getD x) else if q.head? = some n then some x
      else cprev q n := by
  have hr : q.reverse.Nodup := List.nodup_reverse.mpr (List.nodup_append.mp hq).1
  unfold cprev
  rw [List.reverse_append, List.reverse_singleton, List.singleton_append, cnext_cons hr]
  simp only [List.headD_eq_head?_getD, List.head?_reverse, List.getLast?_reverse]

/-- Prepending: the new first element is preceded by the last one. -/
theorem cprev_cons {x : α} {r : List α} (h : (x :: r).Nodup) (n : α) :
    cprev (x :: r) n =
      if n = x then some (r.getLast?.getD x) else if r.head? = some n then some x
      else cprev r n := by
  have h' : (r ++ [x]).Nodup := List.nodup_append_comm.mp (by simpa using h)
  rw [show x :: r = [x] ++ r from rfl, cprev_rotate h, cprev_append_singleton h']

theorem cprev_erase {q : List α} (hq : q.Nodup) {np : α} (hnp : np ∈ q) (n : α) :
    cprev (q.erase np) n = if n = np then none
      else if cprev q n = some np then cprev q np else cprev q n := by
  have hrev : (q.erase np).reverse = q.reverse.erase np := by
    rw [hq.erase_eq_filter, (List.nodup_reverse.mpr hq).erase_eq_filter, List.filter_reverse]
  unfold cprev
  rw [hrev, cnext_erase (List.nodup_reverse.mpr hq) (List.mem_reverse.mpr hnp)]

theorem mem_of_cprev_eq_some {q : List α} {n m : α} (h : cprev q n = some m) : m ∈ q :=
  List.mem_reverse.mp (mem_of_cnext_eq_some' h)

/-- In a cycle, `m` follows `n` exactly when `n` precedes `m`: the links are bidirectional. -/
theorem cnext_eq_some_iff {q : List α} (hq : q.Nodup) {n m : α} :
    cnext q n = some m ↔ cprev q m = some n := by
  by_cases hn : n ∈ q
  · obtain ⟨l₁, l₂, rfl⟩ := List.append_of_mem hn
    have hrot : (n :: (l₂ ++ l₁)).Nodup :=
      List.Perm.nodup_iff (List.perm_append_comm.trans (by simp)) |>.mp hq
    rw [cnext_rotate hq, cprev_rotate hq, List.cons_append, cnext_cons_self, cprev_cons hrot]
    obtain ⟨hnr, -⟩ := List.nodup_cons.mp hrot
    generalize l₂ ++ l₁ = r at hnr ⊢
    cases r with
    | nil =>
      by_cases hm : m = n
      · simp [hm, cprev, cnext, nextIn]
      · simp [hm, Ne.symm hm, cprev, cnext, nextIn]
    | cons b r =>
      have hnb : n ≠ b := fun h => hnr (h ▸ List.mem_cons_self _ _)
      by_cases hmn : m = n
      · subst hmn
        have hlast : (b :: r).getLast?.getD m ∈ b :: r := by
          rw [List.getLast?_cons]; exact List.mem_of_getLast?_eq_some List.getLast?_cons
        simp only [if_true, Option.some_inj, List.headD_cons]
        exact ⟨fun h => absurd h.symm hnb, fun h => absurd (h ▸ hlast) hnr⟩
      · simp only [hmn, if_false, List.head?_cons, Option.some_inj, List.headD_cons]
        by_cases hmb : b = m
        · simp [hmb]
        · simp only [hmb, if_false, false_iff]
          exact fun h => hnr (mem_of_cprev_eq_some h)
  · rw [cnext_eq_none hn]
    exact ⟨(fun h => by cases h), fun h => absurd (mem_of_cprev_eq_some h) hn⟩

/-! ## The two pieces of pointer code -/

/-- **Tail insertion appends.**  The insertion in `fusefs_addfree` of a node not on the list
makes the links represent the queue with the node at its end. -/
theorem represents_addfreeLink {L : FreeLinks α} {q : List α} (hr : Represents L q) {np : α}
    (hnp : np ∉ q) : Represents (addfreeLink L np) (q ++ [np]) := by
  have hq' : (q ++ [np]).Nodup := List.nodup_append.mpr ⟨hr.nodup, List.nodup_singleton _,
    fun a ha hb => hnp ((List.mem_singleton.mp hb) ▸ ha)⟩
  cases q with
  | nil =>
    have hh : L.fusefreelist = none := hr.head
    simp only [addfreeLink, hh]
    refine ⟨hq', rfl, ?_, ?_⟩ <;> funext n <;> by_cases hn : n = np <;>
      simp [hn, update_apply, hr.freef, hr.freeb, cnext, cprev, nextIn]
  | cons a l =>
    have hna : np ≠ a := fun h => hnp (h ▸ List.mem_cons_self _ _)
    have hh : L.fusefreelist = some a := hr.head
    obtain ⟨z, hz⟩ : ∃ z, l.getLast?.getD a = z := ⟨_, rfl⟩
    have hzq : z ∈ a :: l := List.mem_of_getLast?_eq_some (hz ▸ List.getLast?_cons)
    have hzn : z ≠ np := fun h => hnp (h ▸ hzq)
    have hprev : L.rFreeb a = some z := by rw [hr.freeb, cprev_cons hr.nodup]; simp [hz]
    simp only [addfreeLink, hh, update_apply, hna, if_false, hprev]
    refine ⟨hq', rfl, ?_, ?_⟩ <;> funext n
    · rw [cnext_append_singleton hq', hr.freef, List.getLast?_cons, hz]
      by_cases hn : n = np
      · simp [hn, hzn.symm]
      · by_cases hnz : n = z
        · subst hnz; simp [hn]
        · simp [hn, hnz, Ne.symm hnz]
    · rw [cprev_append_singleton hq', hr.freeb, List.getLast?_cons, hz]
      by_cases hn : n = np
      · subst hn; simp [update_apply, hna]
      · by_cases hnz : n = a
        · subst hnz; simp [hn]
        · simp [hn, hnz, Ne.symm hnz]

theorem nextIn_isSome {f : α} {l : List α} {n : α} (hn : n ∈ l) : (nextIn f l n).isSome := by
  induction l with
  | nil => simp at hn
  | cons a l ih =>
    unfold nextIn
    split_ifs with ha
    · rfl
    · exact ih ((List.mem_cons.mp hn).resolve_left ha)

theorem exists_cnext {q : List α} {n : α} (hn : n ∈ q) : ∃ m, cnext q n = some m := by
  cases q with
  | nil => simp at hn
  | cons c l => exact Option.isSome_iff_exists.mp (nextIn_isSome hn)

theorem exists_cprev {q : List α} {n : α} (hn : n ∈ q) : ∃ m, cprev q n = some m :=
  exists_cnext (List.mem_reverse.mpr hn)

/-- **`sn_rmfree` erases.**  Unlinking a member makes the links represent the queue without
it, every other member keeping its place. -/
theorem represents_snRmfree {L : FreeLinks α} {q : List α} (hr : Represents L q) {np : α}
    (hnp : np ∈ q) : Represents (snRmfree L np) (q.erase np) := by
  obtain ⟨nx, hnx⟩ := exists_cnext hnp
  obtain ⟨p, hp⟩ := exists_cprev hnp
  have hpn : cnext q p = some np := (cnext_eq_some_iff hr.nodup).mpr hp
  have hnxp : cprev q nx = some np := (cnext_eq_some_iff hr.nodup).mp hnx
  have hf₁ : (match L.rFreeb np with
      | some prev => update L.rFreef prev (L.rFreef np)
      | none => L.rFreef) = update (cnext q) p (some nx) := by
    rw [hr.freeb, hp, hr.freef, hnx]
  have hf₁np : update (cnext q) p (some nx) np = some nx := by
    by_cases h : np = p
    · subst h; simp
    · simp [update_apply, h, hnx]
  refine ⟨hr.nodup.erase np, ?_, ?_, ?_⟩
  · cases q with
    | nil => simp at hnp
    | cons a l =>
      have hh : L.fusefreelist = some a := hr.head
      by_cases ha : a = np
      · subst ha
        rw [cnext_cons_self] at hnx
        cases l with
        | nil => simp [snRmfree, hh, hr.freef, cnext_cons_self]
        | cons b l =>
          have hb : b ≠ a := fun h => (List.nodup_cons.mp hr.nodup).1 (h ▸ List.mem_cons_self _ _)
          simp [snRmfree, hh, hr.freef, cnext_cons_self, hb]
      · simp [snRmfree, hh, ha, List.erase_cons_tail (a := np) (b := a) (by simp [ha])]
  · simp only [snRmfree, hf₁, hf₁np]
    funext n
    rw [cnext_erase hr.nodup hnp]
    by_cases hn : n = np
    · subst hn; simp
    · by_cases hnp' : n = p
      · subst hnp'; simp [hn, hpn, hnx]
      · have : cnext q n ≠ some np := fun h =>
          hnp' (Option.some_inj.mp (((cnext_eq_some_iff hr.nodup).mp h).symm.trans hp))
        simp [update_apply, hn, hnp', this]
  · simp only [snRmfree, hf₁, hf₁np]
    rw [hr.freeb]
    funext n
    rw [cprev_erase hr.nodup hnp]
    by_cases hn : n = np
    · subst hn; simp
    · by_cases hnn : n = nx
      · subst hnn; simp [hn, hnxp, hp]
      · have : cprev q n ≠ some np := fun h =>
          hnn (Option.some_inj.mp (((cnext_eq_some_iff hr.nodup).mpr h).symm.trans hnx))
        simp [update_apply, hn, hnn, this]

theorem snRmfree_rFreef_self (L : FreeLinks α) (np : α) : (snRmfree L np).rFreef np = none := by
  simp [snRmfree]

theorem snRmfree_rFreeb_self (L : FreeLinks α) (np : α) : (snRmfree L np).rFreeb np = none := by
  simp [snRmfree]

theorem Represents.mem_iff_freef {L : FreeLinks α} {q : List α} (hr : Represents L q) (n : α) :
    n ∈ q ↔ L.rFreef n ≠ none := by
  rw [hr.freef]
  constructor
  · intro hn; obtain ⟨m, hm⟩ := exists_cnext hn; simp [hm]
  · intro hn; by_contra h; exact hn (cnext_eq_none h)

theorem Represents.mem_iff_freeb {L : FreeLinks α} {q : List α} (hr : Represents L q) (n : α) :
    n ∈ q ↔ L.rFreeb n ≠ none := by
  rw [hr.freeb]
  constructor
  · intro hn; obtain ⟨m, hm⟩ := exists_cprev hn; simp [hm]
  · intro hn; by_contra h; exact hn (cnext_eq_none (fun h' => h (List.mem_reverse.mp h')))

theorem represents_empty : Represents (FreeLinks.empty : FreeLinks α) [] :=
  ⟨List.nodup_nil, rfl, rfl, rfl⟩

/-! ## Walking the list -/

/-- Following `r_freef` from `n`, visiting at most `fuel` nodes, until the head comes round. -/
def walkFrom (L : FreeLinks α) (head : α) : Nat → α → List α
  | 0, _ => []
  | fuel + 1, n => n :: match L.rFreef n with
    | some m => if m = head then [] else walkFrom L head fuel m
    | none => []

/-- The nodes reached by following `r_freef` from `fusefreelist` until it returns to the
head, visiting at most `fuel` nodes. -/
def freelistWalk (L : FreeLinks α) (fuel : Nat) : List α :=
  match L.fusefreelist with
  | none => []
  | some head => walkFrom L head fuel head

theorem walkFrom_suffix {L : FreeLinks α} {a : α} {l : List α} (hr : Represents L (a :: l)) :
    ∀ {l₂ l₁ : List α} {b : α} {fuel : Nat}, a :: l = l₁ ++ b :: l₂ → l₂.length < fuel →
      walkFrom L a fuel b = b :: l₂ := by
  intro l₂
  induction l₂ with
  | nil =>
    intro l₁ b fuel h hf
    obtain ⟨fuel, rfl⟩ := Nat.exists_eq_add_of_lt hf
    simp [walkFrom, hr.freef, cnext_of_append hr.nodup h]
  | cons c l₂ ih =>
    intro l₁ b fuel h hf
    obtain ⟨fuel, rfl⟩ := Nat.exists_eq_add_of_lt (Nat.lt_of_le_of_lt (Nat.zero_le _) hf)
    have hcl : c ∈ l := by
      have : l = (l₁ ++ b :: c :: l₂).tail := by rw [← h]; rfl
      cases l₁ <;> simp [this]
    have hca : c ≠ a := fun he => (List.nodup_cons.mp hr.nodup).1 (he ▸ hcl)
    have h' : a :: l = (l₁ ++ [b]) ++ c :: l₂ := by simp [h]
    simp only [walkFrom, hr.freef, cnext_of_append hr.nodup h, List.headD_cons, hca, if_false]
    rw [ih h' (by simp at hf; omega)]

/-- Following the forward links from the head lists the queue. -/
theorem freelistWalk_eq {L : FreeLinks α} {q : List α} (hr : Represents L q) {fuel : Nat}
    (hfuel : q.length ≤ fuel) : freelistWalk L fuel = q := by
  cases q with
  | nil => simp [freelistWalk, hr.head]
  | cons a l =>
    simp only [freelistWalk, hr.head, List.head?_cons]
    exact walkFrom_suffix hr (show a :: l = [] ++ a :: l from rfl) (by simpa using hfuel)

/-! ## Every sequence of freelist operations -/

/-- The link states the file's freelist code reaches from the empty list: the tail insertion
of `fusefs_addfree` on a node whose links are `NULL` (its first assertion), and `sn_rmfree`
on a node whose links are not (its assertion). -/
inductive FreelistReachable : FreeLinks α → Prop
  | empty : FreelistReachable FreeLinks.empty
  | addfree {L : FreeLinks α} {np : α} : FreelistReachable L →
      L.rFreef np = none → L.rFreeb np = none → FreelistReachable (addfreeLink L np)
  | rmfree {L : FreeLinks α} {np : α} : FreelistReachable L →
      L.rFreef np ≠ none → L.rFreeb np ≠ none → FreelistReachable (snRmfree L np)

theorem FreelistReachable.represents {L : FreeLinks α} (hL : FreelistReachable L) :
    ∃ q, Represents L q := by
  induction hL with
  | empty => exact ⟨[], represents_empty⟩
  | addfree _ hf _ ih =>
    obtain ⟨q, hq⟩ := ih
    exact ⟨_, represents_addfreeLink hq (fun h => (hq.mem_iff_freef _).mp h hf)⟩
  | rmfree _ hf _ ih =>
    obtain ⟨q, hq⟩ := ih
    exact ⟨_, represents_snRmfree hq ((hq.mem_iff_freef _).mpr hf)⟩

/-- **The freelist is a queue.**  After any sequence of the file's freelist operations from
the empty list, following `r_freef` from `fusefreelist` lists a queue `q` without repetition;
its members are exactly the nodes with a non-NULL `r_freef`, and exactly those with a
non-NULL `r_freeb`; the links are bidirectional; `fusefreelist` is its oldest element and is
NULL just when it is empty; the insertion of `fusefs_addfree` appends to it; `sn_rmfree`
erases from it, keeping the order of the rest, and clears the node's links. -/
theorem freelist_refines_queue {L : FreeLinks α} (hL : FreelistReachable L) :
    ∃ q : List α, (∀ fuel, q.length ≤ fuel → freelistWalk L fuel = q) ∧ q.Nodup ∧
      L.fusefreelist = q.head? ∧ (L.fusefreelist = none ↔ q = []) ∧
      (∀ n, n ∈ q ↔ L.rFreef n ≠ none) ∧ (∀ n, n ∈ q ↔ L.rFreeb n ≠ none) ∧
      (∀ n ∈ q, ∃ f b, L.rFreef n = some f ∧ L.rFreeb f = some n ∧
        L.rFreeb n = some b ∧ L.rFreef b = some n) ∧
      (∀ np, L.rFreef np = none → L.rFreeb np = none →
        ∀ fuel, q.length < fuel → freelistWalk (addfreeLink L np) fuel = q ++ [np]) ∧
      (∀ np ∈ q, (snRmfree L np).rFreef np = none ∧ (snRmfree L np).rFreeb np = none ∧
        ∀ fuel, q.length ≤ fuel → freelistWalk (snRmfree L np) fuel = q.erase np) := by
  obtain ⟨q, hr⟩ := hL.represents
  refine ⟨q, fun _ => freelistWalk_eq hr, hr.nodup, hr.head, ?_, hr.mem_iff_freef,
    hr.mem_iff_freeb, ?_, ?_, ?_⟩
  · rw [hr.head]; cases q <;> simp
  · intro n hn
    obtain ⟨f, hf⟩ := exists_cnext hn
    obtain ⟨b, hb⟩ := exists_cprev hn
    refine ⟨f, b, hr.freef ▸ hf, hr.freeb ▸ (cnext_eq_some_iff hr.nodup).mp hf, hr.freeb ▸ hb,
      hr.freef ▸ (cnext_eq_some_iff hr.nodup).mpr hb⟩
  · intro np hf _ fuel hfuel
    exact freelistWalk_eq (represents_addfreeLink hr fun h => (hr.mem_iff_freef _).mp h hf)
      (by simpa using hfuel)
  · intro np hnp
    refine ⟨snRmfree_rFreef_self L np, snRmfree_rFreeb_self L np, fun fuel hfuel => ?_⟩
    exact freelistWalk_eq (represents_snRmfree hr hnp)
      ((List.length_erase_le _ _).trans hfuel)

/-- Nodes 1 and 2 pooled in that order. -/
def twoPooled : FreeLinks ℕ := addfreeLink (addfreeLink FreeLinks.empty 1) 2

theorem freelist_refines_queue_twoPooled :
    FreelistReachable twoPooled ∧
    ∃ q : List ℕ, (∀ fuel, q.length ≤ fuel → freelistWalk twoPooled fuel = q) ∧ q.Nodup ∧
      twoPooled.fusefreelist = q.head? ∧ (twoPooled.fusefreelist = none ↔ q = []) ∧
      (∀ n, n ∈ q ↔ twoPooled.rFreef n ≠ none) ∧ (∀ n, n ∈ q ↔ twoPooled.rFreeb n ≠ none) ∧
      (∀ n ∈ q, ∃ f b, twoPooled.rFreef n = some f ∧ twoPooled.rFreeb f = some n ∧
        twoPooled.rFreeb n = some b ∧ twoPooled.rFreef b = some n) ∧
      (∀ np, twoPooled.rFreef np = none → twoPooled.rFreeb np = none →
        ∀ fuel, q.length < fuel → freelistWalk (addfreeLink twoPooled np) fuel = q ++ [np]) ∧
      (∀ np ∈ q, (snRmfree twoPooled np).rFreef np = none ∧ (snRmfree twoPooled np).rFreeb np = none ∧
        ∀ fuel, q.length ≤ fuel → freelistWalk (snRmfree twoPooled np) fuel = q.erase np) :=
  have h : FreelistReachable twoPooled := .addfree (.addfree .empty rfl rfl) rfl rfl
  ⟨h, freelist_refines_queue h⟩

end FusefsNode
