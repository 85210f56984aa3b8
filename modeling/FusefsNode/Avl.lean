import FusefsNode.Path
import Mathlib.Data.List.Pairwise

/-!
# The per-mount AVL tree

Each mount keeps its nodes in an AVL tree ordered by `fusefs_node_cmp` on the node headers.
Nothing in `fusefs_node.c` depends on the shape of the tree, only on its in-order sequence,
so the tree is modelled by that sequence: a list of nodes, which the invariants of the cache
keep strictly increasing (`Ordered`).

* `avlFind` is `avl_find`: on an ordered list the first node comparing equal to the key is
  the one the binary search reaches.
* `avlInsert` is `avl_insert` at the position `avl_find` returned: before the first node the
  key is smaller than.
* `avl_remove` is `List.erase`.

The headers are read through a function `hdr`, since in the cache a node's path lives in the
node itself.  Headers are well formed (`n_rplen` is the length of `n_rpath`) for every node
in a tree, and then `fusefs_node_cmp` is the order of `star` (`fusefsNodeCmp_hdr`), so the
usual facts about sorted lists apply.
-/

namespace FusefsNode

/-- A header whose length field is the length of its path. -/
def FusefsNodeHdr.WellFormed (h : FusefsNodeHdr) : Prop := h.hdrNRplen = h.hdrNRpath.length

/-- What `fusefs_node_cmp` compares of a well-formed header. -/
def FusefsNodeHdr.key (h : FusefsNodeHdr) : List ℕ := star h.hdrNRpath

theorem FusefsNodeHdr.eq_hdr {h : FusefsNodeHdr} (hw : h.WellFormed) :
    h = h.hdrNRpath.hdr := by
  cases h; simp_all [WellFormed, Path.hdr]

theorem fusefsNodeCmp_eq_neg_one_iff_key {a b : FusefsNodeHdr} (ha : a.WellFormed)
    (hb : b.WellFormed) : fusefsNodeCmp a b = -1 ↔ a.key < b.key := by
  rw [FusefsNodeHdr.eq_hdr ha, FusefsNodeHdr.eq_hdr hb, fusefsNodeCmp_eq_neg_one_iff]; rfl

theorem fusefsNodeCmp_eq_zero_iff_key {a b : FusefsNodeHdr} (ha : a.WellFormed)
    (hb : b.WellFormed) : fusefsNodeCmp a b = 0 ↔ a.key = b.key := by
  rw [FusefsNodeHdr.eq_hdr ha, FusefsNodeHdr.eq_hdr hb, fusefsNodeCmp_eq_zero_iff]; rfl

variable {α : Type} (hdr : α → FusefsNodeHdr)

/-- `avl_find`: the node of the tree that compares equal to the search header. -/
def avlFind (tree : List α) (key : FusefsNodeHdr) : Option α :=
  tree.find? fun n => fusefsNodeCmp key (hdr n) = 0

/-- `avl_insert` at the position `avl_find` computed for `key`: before the first node that
compares greater. -/
def avlInsert (key : FusefsNodeHdr) (np : α) : List α → List α
  | [] => [np]
  | m :: ms => if fusefsNodeCmp key (hdr m) = -1 then np :: m :: ms else m :: avlInsert key np ms

/-- The in-order sequence of the tree is strictly increasing under `fusefs_node_cmp`. -/
def Ordered (tree : List α) : Prop :=
  tree.Pairwise fun a b => fusefsNodeCmp (hdr a) (hdr b) = -1

instance (tree : List α) : Decidable (Ordered hdr tree) :=
  inferInstanceAs (Decidable (tree.Pairwise _))

/-- Every node of the tree has a well-formed header. -/
def HdrsWellFormed (tree : List α) : Prop := ∀ n ∈ tree, (hdr n).WellFormed

variable {hdr}

theorem avlFind_some {tree : List α} {key : FusefsNodeHdr} {n : α}
    (h : avlFind hdr tree key = some n) : n ∈ tree ∧ fusefsNodeCmp key (hdr n) = 0 := by
  unfold avlFind at h
  exact ⟨List.mem_of_find?_eq_some h, by simpa using List.find?_some h⟩

theorem avlFind_none {tree : List α} {key : FusefsNodeHdr}
    (h : avlFind hdr tree key = none) : ∀ n ∈ tree, fusefsNodeCmp key (hdr n) ≠ 0 := by
  unfold avlFind at h
  intro n hn
  simpa using List.find?_eq_none.mp h n hn

theorem avlFind_congr {hdr' : α → FusefsNodeHdr} {tree : List α} (h : ∀ n ∈ tree, hdr' n = hdr n)
    (key : FusefsNodeHdr) : avlFind hdr' tree key = avlFind hdr tree key := by
  induction tree with
  | nil => rfl
  | cons a tree ih =>
    simp only [avlFind, List.find?_cons, h a (List.mem_cons_self _ _)] at ih ⊢
    rw [ih fun n hn => h n (List.mem_cons_of_mem _ hn)]

@[simp] theorem mem_avlInsert {key : FusefsNodeHdr} {np m : α} {tree : List α} :
    m ∈ avlInsert hdr key np tree ↔ m = np ∨ m ∈ tree := by
  induction tree with
  | nil => simp [avlInsert]
  | cons a tree ih =>
    unfold avlInsert
    split_ifs <;> simp [ih, or_left_comm]

theorem ordered_congr {hdr' : α → FusefsNodeHdr} {tree : List α}
    (h : ∀ n ∈ tree, hdr' n = hdr n) (ho : Ordered hdr tree) : Ordered hdr' tree := by
  unfold Ordered at *
  refine List.Pairwise.imp_of_mem ?_ ho
  intro a b ha hb hab
  rwa [h a ha, h b hb]

theorem ordered_erase [DecidableEq α] {tree : List α} (ho : Ordered hdr tree) (n : α) :
    Ordered hdr (tree.erase n) :=
  ho.sublist (List.erase_sublist _ _)

theorem ordered_cons_iff {m : α} {tree : List α} :
    Ordered hdr (m :: tree) ↔
      (∀ n ∈ tree, fusefsNodeCmp (hdr m) (hdr n) = -1) ∧ Ordered hdr tree :=
  List.pairwise_cons

/-- **Insertion keeps the tree ordered.**  `make_fusenode` inserts only after `sn_hashfind`
found no node equal to the key, and only a node whose header is that key. -/
theorem ordered_avlInsert {key : FusefsNodeHdr} {np : α} {tree : List α}
    (ho : Ordered hdr tree) (hw : HdrsWellFormed hdr tree) (hkey : key.WellFormed)
    (hnp : hdr np = key) (hfind : avlFind hdr tree key = none) :
    Ordered hdr (avlInsert hdr key np tree) := by
  have hne := avlFind_none hfind
  clear hfind
  induction tree with
  | nil => simp [avlInsert, Ordered]
  | cons m tree ih =>
    have hm := hw m (List.mem_cons_self _ _)
    have hw' : HdrsWellFormed hdr tree := fun n hn => hw n (List.mem_cons_of_mem _ hn)
    rw [ordered_cons_iff] at ho
    unfold avlInsert
    split_ifs with hlt
    · refine ordered_cons_iff.mpr ⟨?_, ordered_cons_iff.mpr ho⟩
      intro n hn
      rw [hnp]
      rcases List.mem_cons.mp hn with rfl | hn
      · exact hlt
      · have hmn := (fusefsNodeCmp_eq_neg_one_iff_key hm (hw' n hn)).mp (ho.1 n hn)
        exact (fusefsNodeCmp_eq_neg_one_iff_key hkey (hw' n hn)).mpr
          (lt_trans ((fusefsNodeCmp_eq_neg_one_iff_key hkey hm).mp hlt) hmn)
    · have hgt : (hdr m).key < key.key := by
        have h0 := hne m (List.mem_cons_self _ _)
        rw [fusefsNodeCmp_eq_neg_one_iff_key hkey hm] at hlt
        rw [Ne, fusefsNodeCmp_eq_zero_iff_key hkey hm] at h0
        exact lt_of_le_of_ne (not_lt.mp hlt) (Ne.symm h0)
      refine ordered_cons_iff.mpr ⟨?_, ih ho.2 hw' fun n hn => hne n (List.mem_cons_of_mem _ hn)⟩
      intro n hn
      rcases mem_avlInsert.mp hn with rfl | hn
      · rw [hnp]; exact (fusefsNodeCmp_eq_neg_one_iff_key hm hkey).mpr hgt
      · exact ho.1 n hn

/-- An ordered tree of well-formed headers holds each node once. -/
theorem ordered_nodup {tree : List α} (ho : Ordered hdr tree) (hw : HdrsWellFormed hdr tree) :
    tree.Nodup := by
  refine ho.imp_of_mem fun ha _ hab heq => ?_
  subst heq
  have := (fusefsNodeCmp_eq_zero_iff_key (hw _ ha) (hw _ ha)).mpr rfl
  omega

/-- In an ordered tree of well-formed headers no two nodes compare equal. -/
theorem ordered_unique {tree : List α} (ho : Ordered hdr tree) (hw : HdrsWellFormed hdr tree)
    {a b : α} (ha : a ∈ tree) (hb : b ∈ tree) (hab : fusefsNodeCmp (hdr a) (hdr b) = 0) :
    a = b := by
  induction tree with
  | nil => simp at ha
  | cons x tree ih =>
    have hw' : HdrsWellFormed hdr tree := fun n hn => hw n (List.mem_cons_of_mem _ hn)
    rw [ordered_cons_iff] at ho
    rcases List.mem_cons.mp ha with rfl | ha' <;> rcases List.mem_cons.mp hb with rfl | hb'
    · rfl
    · have := ho.1 b hb'; omega
    · have hba : fusefsNodeCmp (hdr b) (hdr a) = 0 := by
        rw [fusefsNodeCmp_eq_zero_iff_key (hw a ha) (hw b hb)] at hab
        rw [fusefsNodeCmp_eq_zero_iff_key (hw b hb) (hw a ha), hab]
      have := ho.1 a ha'; omega
    · exact ih ho.2 hw' ha' hb'

end FusefsNode
