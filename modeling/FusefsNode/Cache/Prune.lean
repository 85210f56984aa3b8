import FusefsNode.Cache.Invariant
import Mathlib.Data.List.GetD

/-!
# `fusefs_attrcache_prune`

`fusefs_attrcache_prune(top)` walks the index of `top`'s mount from `top` on with
`avl_walk(..., AVL_AFTER)` and calls `fusefs_attrcache_remove` on every node whose path is
`top`'s path followed by `/` or `:`.  It stops at the first node whose path is shorter than
`top`'s or does not start with it, and passes over the nodes that start with it and go on
with another byte, such as `foo bar` between `foo` and `foo/bar`.

## Strategy

On an index whose keys have no NUL, `fusefs_node_cmp` is the lexicographic order of the
paths, so the walk is right for two reasons.

* `pruneWalk_eq`: the loop is `takeWhile` of "starts with `top`'s path" followed by a
  `filter` of "is under `top`"; the two break tests together are the negation of the first
  (`strncmp_eq_zero_iff`).
* `pairwise_startsWith_after`: among the nodes after `top`, those whose path starts with
  `top`'s come first, since a path between `top`'s and one that extends it extends it too
  (`prefix_of_between`).  So `takeWhile` loses none of them (`takeWhile_eq_filter`), and every
  node under `top` is after it (`lt_append_cons`).
-/

namespace FusefsNode

/-! ## Paths under a path -/

/-- `q` is the path of a node under the node of path `p`: `p`, then `/` or `:`, then any
bytes. -/
def IsUnder (p q : Path) : Prop := ∃ c rest, (c = 47 ∨ c = 58) ∧ q = p ++ c :: rest

theorem isUnder_iff {p q : Path} :
    IsUnder p q ↔ p <+: q ∧ (q.getD p.length 0 = 47 ∨ q.getD p.length 0 = 58) := by
  constructor
  · rintro ⟨c, rest, hc, rfl⟩
    refine ⟨List.prefix_append _ _, ?_⟩
    rw [List.getD_append_right _ _ _ _ le_rfl, Nat.sub_self]
    exact hc
  · rintro ⟨⟨u, rfl⟩, hc⟩
    cases u with
    | nil => simp at hc
    | cons c rest =>
      rw [List.getD_append_right _ _ _ _ le_rfl, Nat.sub_self] at hc
      exact ⟨c, rest, hc, rfl⟩

instance (p q : Path) : Decidable (IsUnder p q) := decidable_of_iff _ isUnder_iff.symm

/-- Under a path that `q` starts with, the loop's separator test: `q` is longer, and its
next byte is `:` or `/`. -/
theorem isUnder_iff_of_prefix {p q : Path} (hpre : p <+: q) :
    IsUnder p q ↔ p.length < q.length ∧ (q.getD p.length 0 = 58 ∨ q.getD p.length 0 = 47) := by
  rw [isUnder_iff, or_comm]
  refine ⟨fun ⟨_, h⟩ => ⟨Nat.lt_of_not_le fun hle => ?_, h⟩, fun h => ⟨hpre, h.2⟩⟩
  rw [List.getD_eq_default _ _ hle] at h
  simp at h

/-! ## The loop -/

variable {α : Type} (hdr : α → FusefsNodeHdr)

/-- The loop of `fusefs_attrcache_prune` over the nodes `avl_walk` visits, for `top`'s
`rpath` and `rplen`: the nodes it calls `fusefs_attrcache_remove` on, in order. -/
def pruneWalk (rpath : Path) (rplen : ℕ) : List α → List α
  | [] => []
  | np :: rest =>
    if (hdr np).hdrNRplen < rplen then []
    else if strncmp (hdr np).hdrNRpath rpath rplen ≠ 0 then []
    else if rplen < (hdr np).hdrNRplen ∧ ((hdr np).hdrNRpath.getD rplen 0 = 58 ∨
        (hdr np).hdrNRpath.getD rplen 0 = 47) then np :: pruneWalk rpath rplen rest
    else pruneWalk rpath rplen rest

/-- The break tests of the loop: `strncmp` over `top`'s length is zero exactly when the
node's path starts with `top`'s. -/
theorem strncmp_eq_zero_iff {p : Path} (hp : NulFree p) :
    ∀ {q : Path}, NulFree q → p.length ≤ q.length → (strncmp q p p.length = 0 ↔ p <+: q) := by
  induction p with
  | nil => simp
  | cons c p ih =>
    intro q hq hlen
    obtain ⟨hc, hp'⟩ := List.forall_mem_cons.mp hp
    cases q with
    | nil => simp at hlen
    | cons d q =>
      obtain ⟨hd, hq'⟩ := List.forall_mem_cons.mp hq
      rw [List.length_cons, strncmp_cons, List.cons_prefix_cons]
      by_cases hdc : d = c
      · subst hdc
        simp only [ne_eq, not_true_eq_false, if_false, hd, true_and]
        exact ih hp' hq' (by simpa using hlen)
      · have := toNat_ne_of_ne hdc
        simp only [ne_eq, hdc, not_false_eq_true, if_true, Ne.symm hdc, false_and, iff_false]
        omega

/-- Well-formed headers with NUL-free paths. -/
def NulFreeHdrs (l : List α) : Prop :=
  ∀ n ∈ l, (hdr n).WellFormed ∧ NulFree (hdr n).hdrNRpath

instance (l : List α) : Decidable (NulFreeHdrs hdr l) :=
  inferInstanceAs (Decidable (∀ n ∈ l, (hdr n).hdrNRplen = (hdr n).hdrNRpath.length ∧ _))

variable {hdr}

/-- **The loop.**  It keeps the nodes under `top` among the longest run of nodes whose path
starts with `top`'s. -/
theorem pruneWalk_eq {P : Path} (hP : NulFree P) :
    ∀ {l : List α}, NulFreeHdrs hdr l →
      pruneWalk hdr P P.length l =
        (l.takeWhile fun n => P <+: (hdr n).hdrNRpath).filter
          fun n => IsUnder P (hdr n).hdrNRpath
  | [], _ => rfl
  | np :: rest, hl => by
    obtain ⟨hw, hn⟩ := hl np (List.mem_cons_self _ _)
    have ih := pruneWalk_eq hP fun n hn => hl n (List.mem_cons_of_mem _ hn)
    simp only [FusefsNodeHdr.WellFormed] at hw
    rw [pruneWalk, hw]
    by_cases hlen : (hdr np).hdrNRpath.length < P.length
    · have : ¬ P <+: (hdr np).hdrNRpath := fun h => absurd h.length_le (by omega)
      simp [hlen, this]
    · rw [if_neg hlen, List.takeWhile_cons]
      by_cases hpre : P <+: (hdr np).hdrNRpath
      · have hu := isUnder_iff_of_prefix hpre
        rw [if_neg (not_not.mpr ((strncmp_eq_zero_iff hP hn (Nat.le_of_not_lt hlen)).mpr hpre))]
        by_cases hund : IsUnder P (hdr np).hdrNRpath
        · rw [if_pos (hu.mp hund)]; simp [hpre, hund, ih]
        · rw [if_neg (mt hu.mpr hund)]; simp [hpre, hund, ih]
      · rw [if_pos (mt (strncmp_eq_zero_iff hP hn (Nat.le_of_not_lt hlen)).mp hpre)]
        simp [hpre]

/-! ## The order of the index -/

/-- A proper extension of a list is greater than it. -/
theorem lt_append_cons (p : List ℕ) (c : ℕ) (rest : List ℕ) : p < p ++ c :: rest := by
  induction p with
  | nil => exact List.nil_lt_cons _ _
  | cons a p ih => exact List.Lex.cons ih

/-- A list between `p` and one of `p`'s extensions extends `p` too. -/
theorem prefix_of_between :
    ∀ {p x y : List ℕ}, p < x → x < y → p <+: y → p <+: x
  | [], _, _, _, _, _ => List.nil_prefix
  | a :: p, x, y, h₁, h₂, hp => by
    obtain ⟨y, rfl⟩ := hp
    cases x with
    | nil => exact absurd h₁ (not_lt_nil _)
    | cons b x =>
      cases h₁ with
      | cons h₁ =>
        cases h₂ with
        | cons h₂ => exact List.prefix_cons_inj _ |>.mpr (prefix_of_between h₁ h₂ ⟨y, rfl⟩)
        | rel h₂ => exact absurd h₂ (lt_irrefl _)
      | rel h₁ =>
        cases h₂ with
        | cons h₂ => exact absurd h₁ (lt_irrefl _)
        | rel h₂ => exact absurd (h₁.trans h₂) (lt_irrefl _)

theorem prefix_map_toNat_iff {p q : Path} : p.map UInt8.toNat <+: q.map UInt8.toNat ↔ p <+: q := by
  have hinj : Function.Injective (List.map UInt8.toNat) :=
    List.map_injective_iff.mpr fun _ _ he => UInt8.eq_of_val_eq (Fin.ext he)
  refine ⟨fun h => ?_, fun h => h.map _⟩
  rw [List.prefix_iff_eq_take, List.length_map, ← List.map_take] at h
  exact List.prefix_iff_eq_take.mpr (hinj h)

/-- A prefix property on a list is one whose holders come first: the filter is the
`takeWhile`. -/
theorem takeWhile_eq_filter {β : Type} {P : β → Prop} [DecidablePred P] :
    ∀ {l : List β}, l.Pairwise (fun x y => P y → P x) →
      (l.takeWhile fun x => P x) = l.filter fun x => P x
  | [], _ => rfl
  | a :: l, h => by
    obtain ⟨ha, hl⟩ := List.pairwise_cons.mp h
    by_cases hp : P a
    · simp [hp, takeWhile_eq_filter hl]
    · have : l.filter (fun x => P x) = [] :=
        List.filter_eq_nil_iff.mpr fun y hy hy' => hp (ha y hy (by simpa using hy'))
      simp [hp, this]

/-- On well-formed headers, the order of the tree is the order of the keys. -/
theorem pairwise_key_lt {tree : List α} (ho : Ordered hdr tree) (hw : NulFreeHdrs hdr tree) :
    tree.Pairwise fun x y => (hdr x).key < (hdr y).key :=
  List.Pairwise.imp_of_mem (fun hx hy h =>
    (fusefsNodeCmp_eq_neg_one_iff_key (hw _ hx).1 (hw _ hy).1).mp h) ho

variable [DecidableEq α] (hdr)

/-- The nodes `avl_walk(tree, np, AVL_AFTER)` visits from `top` on: those after it in order. -/
def avlAfter (tree : List α) (top : α) : List α := (tree.dropWhile fun n => n ≠ top).tail

/-- `fusefs_attrcache_prune(top)` on the tree that holds `top`: the nodes whose attributes it
invalidates. -/
def fusefsAttrcachePrune (tree : List α) (top : α) : List α :=
  pruneWalk hdr (hdr top).hdrNRpath (hdr top).hdrNRplen (avlAfter tree top)

/-- `fusefs_attrcache_prune(top)` on the index of `top`'s mount. -/
def Cache.attrcachePrune (s : Cache) (top : Node) : List Node :=
  fusefsAttrcachePrune s.hdr (s.mount (s.node top).nMount).fmiHashAvl top

variable {hdr}

section Tree

variable {tree : List α} {top : α}

theorem dropWhile_ne_eq (htop : top ∈ tree) :
    tree.dropWhile (fun n => n ≠ top) = top :: avlAfter tree top := by
  induction tree with
  | nil => simp at htop
  | cons a l ih =>
    by_cases ha : a = top
    · subst ha; simp [avlAfter]
    · have := ih ((List.mem_cons.mp htop).resolve_left (Ne.symm ha))
      simp only [avlAfter] at this ⊢
      rw [List.dropWhile_cons_of_pos (by simpa using ha), this]
      rfl

/-- `top` splits the tree into the nodes before it, itself and the nodes after it. -/
theorem eq_append_avlAfter (htop : top ∈ tree) :
    tree = tree.takeWhile (fun n => n ≠ top) ++ top :: avlAfter tree top := by
  conv_lhs => rw [← List.takeWhile_append_dropWhile (fun n => decide (n ≠ top)) tree]
  rw [dropWhile_ne_eq htop]

variable (ho : Ordered hdr tree) (hw : NulFreeHdrs hdr tree) (htop : top ∈ tree)
include ho hw htop

/-- The keys of the nodes after `top` increase and are above `top`'s. -/
theorem avlAfter_sorted :
    (avlAfter tree top).Pairwise (fun x y => (hdr x).key < (hdr y).key) ∧
      ∀ x ∈ avlAfter tree top, (hdr top).key < (hdr x).key ∧ x ∈ tree := by
  have hsplit := eq_append_avlAfter htop
  have hlt := pairwise_key_lt ho hw
  rw [hsplit, List.pairwise_append, List.pairwise_cons] at hlt
  refine ⟨hlt.2.1.2, fun x hx => ⟨hlt.2.1.1 x hx, ?_⟩⟩
  rw [hsplit]
  exact List.mem_append_right _ (List.mem_cons_of_mem _ hx)

/-- Every node under `top` is after it. -/
theorem mem_avlAfter_of_isUnder {n : α} (hn : n ∈ tree)
    (hu : IsUnder (hdr top).hdrNRpath (hdr n).hdrNRpath) : n ∈ avlAfter tree top := by
  have hsplit := eq_append_avlAfter htop
  have hlt : (hdr top).key < (hdr n).key := by
    obtain ⟨c, rest, -, he⟩ := hu
    rw [FusefsNodeHdr.key, FusefsNodeHdr.key, star_of_nulFree (hw top htop).2,
      star_of_nulFree (hw n hn).2, he, List.map_append, List.map_cons]
    exact lt_append_cons _ _ _
  have hord := pairwise_key_lt ho hw
  rw [hsplit] at hn hord
  rcases List.mem_append.mp hn with hb | ha
  · have := (List.pairwise_append.mp hord).2.2 n hb top (List.mem_cons_self _ _)
    exact absurd (this.trans hlt) (lt_irrefl _)
  · rcases List.mem_cons.mp ha with rfl | ha
    · exact absurd hlt (lt_irrefl _)
    · exact ha

/-- Among the nodes after `top`, those whose path starts with `top`'s come first. -/
theorem pairwise_startsWith_after :
    (avlAfter tree top).Pairwise fun x y =>
      (hdr top).hdrNRpath <+: (hdr y).hdrNRpath → (hdr top).hdrNRpath <+: (hdr x).hdrNRpath := by
  obtain ⟨hs, hgt⟩ := avlAfter_sorted ho hw htop
  refine List.Pairwise.imp_of_mem (fun {x y} hx hy hxy hpre => ?_) hs
  have key_eq : ∀ n ∈ tree, (hdr n).key = (hdr n).hdrNRpath.map UInt8.toNat :=
    fun n hn => star_of_nulFree (hw n hn).2
  obtain ⟨hx₁, hx₂⟩ := hgt x hx
  obtain ⟨-, hy₂⟩ := hgt y hy
  rw [key_eq x hx₂, key_eq top htop] at hx₁
  rw [key_eq x hx₂, key_eq y hy₂] at hxy
  exact prefix_map_toNat_iff.mp (prefix_of_between hx₁ hxy (hpre.map _))

/-- **What `fusefs_attrcache_prune` invalidates.**  On an ordered tree of NUL-free keys, the
walk keeps exactly the nodes after `top` that are under it, each once. -/
theorem fusefsAttrcachePrune_eq_filter :
    fusefsAttrcachePrune hdr tree top =
      (avlAfter tree top).filter fun x => IsUnder (hdr top).hdrNRpath (hdr x).hdrNRpath := by
  have hafter := avlAfter_sorted ho hw htop
  have hwt := hw top htop
  have hlen : (hdr top).hdrNRplen = (hdr top).hdrNRpath.length := hwt.1
  rw [fusefsAttrcachePrune, hlen, pruneWalk_eq hwt.2 fun x hx => hw x (hafter.2 x hx).2,
    takeWhile_eq_filter (pairwise_startsWith_after ho hw htop), List.filter_filter]
  congr 1
  funext x
  by_cases hu : IsUnder (hdr top).hdrNRpath (hdr x).hdrNRpath
  · simp [hu, (isUnder_iff.mp hu).1]
  · simp [hu]

theorem mem_fusefsAttrcachePrune_iff (n : α) :
    n ∈ fusefsAttrcachePrune hdr tree top ↔
      n ∈ tree ∧ IsUnder (hdr top).hdrNRpath (hdr n).hdrNRpath := by
  rw [fusefsAttrcachePrune_eq_filter ho hw htop, List.mem_filter, decide_eq_true_iff]
  exact ⟨fun h => ⟨((avlAfter_sorted ho hw htop).2 n h.1).2, h.2⟩,
    fun h => ⟨mem_avlAfter_of_isUnder ho hw htop h.1 h.2, h.2⟩⟩

theorem nodup_fusefsAttrcachePrune : (fusefsAttrcachePrune hdr tree top).Nodup := by
  rw [fusefsAttrcachePrune_eq_filter ho hw htop]
  exact ((ordered_nodup ho fun x hx => (hw x hx).1).sublist
    ((List.tail_sublist _).trans (List.dropWhile_sublist _))).filter _

end Tree

/-- **`fusefs_attrcache_prune`.**  On every tree ordered by `fusefs_node_cmp` whose keys are
well formed and NUL-free, and for every node `top` of it, the walk calls
`fusefs_attrcache_remove` exactly once on each node whose path is `top`'s followed by `/` or
`:`, and on no other node; and the call leaves the cache, its indexes included, as it was. -/
theorem attrcache_prune_exact {tree : List α} (ho : Ordered hdr tree)
    (hw : NulFreeHdrs hdr tree) {top : α} (htop : top ∈ tree) :
    (fusefsAttrcachePrune hdr tree top).Nodup ∧
    (∀ n, n ∈ fusefsAttrcachePrune hdr tree top ↔
      n ∈ tree ∧ IsUnder (hdr top).hdrNRpath (hdr n).hdrNRpath) ∧
    ∀ (s s' : Cache) (t : Tid) (np : Node), s.step (.prune t np) = some s' → s' = s := by
  refine ⟨nodup_fusefsAttrcachePrune ho hw htop, mem_fusefsAttrcachePrune_iff ho hw htop,
    fun s s' t np h => ?_⟩
  simp only [Cache.step] at h
  split_ifs at h
  exact (Option.some.inj h).symm

/-- The paths of the specification's prune scenario, in index order: `foo`, `foo bar`,
`foo/bar`, `foo/baz`, `foo:stream`, `fop`. -/
def pruneScenario : List Path :=
  [[102, 111, 111], [102, 111, 111, 32, 98, 97, 114], [102, 111, 111, 47, 98, 97, 114],
   [102, 111, 111, 47, 98, 97, 122], [102, 111, 111, 58, 115, 116, 114, 101, 97, 109],
   [102, 111, 112]]

theorem attrcache_prune_exact_scenario :
    Ordered Path.hdr pruneScenario ∧ NulFreeHdrs Path.hdr pruneScenario ∧
      [102, 111, 111] ∈ pruneScenario ∧
      ((fusefsAttrcachePrune Path.hdr pruneScenario [102, 111, 111]).Nodup ∧
      (∀ n, n ∈ fusefsAttrcachePrune Path.hdr pruneScenario [102, 111, 111] ↔
        n ∈ pruneScenario ∧ IsUnder (Path.hdr [102, 111, 111]).hdrNRpath (Path.hdr n).hdrNRpath) ∧
      ∀ (s s' : Cache) (t : Tid) (np : Node), s.step (.prune t np) = some s' → s' = s) := by
  have ho : Ordered Path.hdr pruneScenario := by decide
  have hw : NulFreeHdrs Path.hdr pruneScenario := by decide
  have htop : [102, 111, 111] ∈ pruneScenario := by decide
  exact ⟨ho, hw, htop, attrcache_prune_exact ho hw htop⟩

/-- On the scenario, `foo/bar`, `foo/baz` and `foo:stream` are invalidated, and neither
`foo bar` nor `fop`. -/
example : fusefsAttrcachePrune Path.hdr pruneScenario [102, 111, 111] =
    [[102, 111, 111, 47, 98, 97, 114], [102, 111, 111, 47, 98, 97, 122],
     [102, 111, 111, 58, 115, 116, 114, 101, 97, 109]] := by decide

end FusefsNode
