import Mathlib.Data.List.Lex
import Mathlib.Order.Basic

/-!
# Remote path names and `fusefs_node_cmp`

A node is found in its mount's AVL tree by its remote path name `n_rpath`, a byte string
paired with its length `n_rplen`.  `sn_hashfind` wraps the path it searches for in a
`fusefs_node_hdr_t`, and the tree orders headers with `fusefs_node_cmp`, which is
`strncmp` over the common length followed by a length comparison.

Because `strncmp` stops at a NUL byte, the comparator does not read the bytes after the first
NUL.  `fusefsNodeCmp_hdr` makes this exact: on well-formed headers it is the sign of the
lexicographic comparison (a proper prefix being smaller) of `star a` and `star b`, where
`star s` reads `s` with every byte after its first NUL replaced by NUL.  Everything the rest of
the development needs about the order of the index (that it is a strict total order on the
classes of equal `star`) follows from the linear order on `List ℕ`.
-/

namespace FusefsNode

/-- A remote path name: the bytes of `n_rpath`, compared as unsigned characters. -/
abbrev Path := List UInt8

/-- `fusefs_node_hdr_t`: the part of a node `fusefs_node_cmp` reads. -/
structure FusefsNodeHdr where
  hdrNRpath : Path
  hdrNRplen : Nat
  deriving DecidableEq, Repr

/-- The header of a path whose length field is its length. -/
def Path.hdr (p : Path) : FusefsNodeHdr := ⟨p, p.length⟩

/-- C `strncmp`.  Paths are stored NUL-terminated, so a byte past the end reads as NUL. -/
def strncmp : Path → Path → Nat → Int
  | _, _, 0 => 0
  | s₁, s₂, n + 1 =>
    if s₁.headD 0 ≠ s₂.headD 0 then ((s₁.headD 0).toNat : Int) - (s₂.headD 0).toNat
    else if s₁.headD 0 = 0 then 0
    else strncmp s₁.tail s₂.tail n

/-- `fusefs_node_cmp`: "same semantics as strcmp, but does not assume the strings are null
terminated". -/
def fusefsNodeCmp (a b : FusefsNodeHdr) : Int :=
  let clen := min a.hdrNRplen b.hdrNRplen
  let diff := strncmp a.hdrNRpath b.hdrNRpath clen
  if diff < 0 then -1
  else if diff > 0 then 1
  else if b.hdrNRplen > clen then -1
  else if a.hdrNRplen > clen then 1
  else 0

/-- The bytes `strncmp` compares: every byte after the first NUL reads as NUL. -/
def star : Path → List ℕ
  | [] => []
  | c :: s => if c = 0 then 0 :: List.replicate s.length 0 else c.toNat :: star s

/-- The sign of the lexicographic comparison of two byte lists. -/
def lexSign (x y : List ℕ) : Int :=
  if x < y then -1 else if x = y then 0 else 1

/-! ## Unfolding lemmas -/

@[simp] theorem strncmp_zero (s₁ s₂ : Path) : strncmp s₁ s₂ 0 = 0 := rfl

theorem strncmp_cons (c₁ c₂ : UInt8) (s₁ s₂ : Path) (n : Nat) :
    strncmp (c₁ :: s₁) (c₂ :: s₂) (n + 1) =
      if c₁ ≠ c₂ then (c₁.toNat : Int) - c₂.toNat
      else if c₁ = 0 then 0 else strncmp s₁ s₂ n := rfl

@[simp] theorem star_length (s : Path) : (star s).length = s.length := by
  induction s with
  | nil => rfl
  | cons c s ih => by_cases hc : c = 0 <;> simp [star, hc, ih]

@[simp] theorem star_nil : star [] = [] := rfl

theorem star_cons_of_ne {c : UInt8} (hc : c ≠ 0) (s : Path) :
    star (c :: s) = c.toNat :: star s := by
  simp [star, hc]

theorem star_cons_zero (s : Path) : star (0 :: s) = 0 :: List.replicate s.length 0 := by
  simp [star]

theorem not_lt_nil (l : List ℕ) : ¬ l < [] := List.Lex.not_nil_right _ _

theorem toNat_ne_of_ne {c d : UInt8} (h : c ≠ d) : c.toNat ≠ d.toNat :=
  fun he => h (UInt8.eq_of_val_eq (Fin.ext he))

theorem star_head (c : UInt8) (s : Path) : ∃ t, star (c :: s) = c.toNat :: t := by
  by_cases hc : c = 0
  · exact ⟨List.replicate s.length 0, by simp [star, hc]⟩
  · exact ⟨_, star_cons_of_ne hc s⟩

/-! ## The comparator is a lexicographic comparison -/

theorem lexSign_cons_ne {x y : ℕ} (h : x ≠ y) (xs ys : List ℕ) :
    lexSign (x :: xs) (y :: ys) = if x < y then -1 else 1 := by
  have hlt : x :: xs < y :: ys ↔ x < y := by
    constructor
    · intro h'; cases h' <;> simp_all
    · exact List.Lex.rel
  rcases Nat.lt_or_gt_of_ne h with hxy | hxy
  · simp [lexSign, hlt.mpr hxy, hxy]
  · simp [lexSign, hlt, h, Nat.not_lt.mpr hxy.le]

theorem lexSign_cons_same (x : ℕ) (xs ys : List ℕ) :
    lexSign (x :: xs) (x :: ys) = lexSign xs ys := by
  have h : x :: xs < x :: ys ↔ xs < ys := List.Lex.cons_iff
  simp only [lexSign, h, List.cons.injEq, true_and]

theorem lexSign_zeros (m n : ℕ) :
    lexSign (List.replicate m 0) (List.replicate n 0) =
      if m < n then -1 else if m = n then 0 else 1 := by
  induction m generalizing n with
  | zero => cases n <;> simp [lexSign, List.replicate_succ, List.nil_lt_cons]
  | succ m ih =>
    cases n with
    | zero => simp [lexSign, not_lt_nil]
    | succ n => simp only [List.replicate_succ, lexSign_cons_same, ih]; simp

theorem fusefsNodeCmp_nil_left (b : Path) :
    fusefsNodeCmp (Path.hdr []) (Path.hdr b) = if b = [] then 0 else -1 := by
  cases b <;> simp [fusefsNodeCmp, Path.hdr]

theorem fusefsNodeCmp_nil_right (c : UInt8) (a : Path) :
    fusefsNodeCmp (Path.hdr (c :: a)) (Path.hdr []) = 1 := by
  simp [fusefsNodeCmp, Path.hdr]

theorem fusefsNodeCmp_cons_same {c : UInt8} (hc : c ≠ 0) (a b : Path) :
    fusefsNodeCmp (Path.hdr (c :: a)) (Path.hdr (c :: b)) =
      fusefsNodeCmp (Path.hdr a) (Path.hdr b) := by
  simp only [fusefsNodeCmp, Path.hdr, List.length_cons, Nat.add_min_add_right,
    strncmp_cons, ne_eq, not_true_eq_false, if_false, hc]
  simp only [gt_iff_lt, Nat.add_lt_add_iff_right]

theorem fusefsNodeCmp_cons_zero (a b : Path) :
    fusefsNodeCmp (Path.hdr (0 :: a)) (Path.hdr (0 :: b)) =
      if a.length < b.length then -1 else if a.length = b.length then 0 else 1 := by
  simp only [fusefsNodeCmp, Path.hdr, List.length_cons, Nat.add_min_add_right,
    strncmp_cons, ne_eq, not_true_eq_false, if_false, if_true]
  simp only [lt_self_iff_false, if_false, gt_iff_lt, Nat.add_lt_add_iff_right]
  split_ifs <;> omega

theorem fusefsNodeCmp_cons_ne {c d : UInt8} (h : c ≠ d) (a b : Path) :
    fusefsNodeCmp (Path.hdr (c :: a)) (Path.hdr (d :: b)) =
      if c.toNat < d.toNat then -1 else 1 := by
  have hne := toNat_ne_of_ne h
  simp only [fusefsNodeCmp, Path.hdr, List.length_cons, Nat.add_min_add_right,
    strncmp_cons, ne_eq, h, not_false_eq_true, if_true]
  rcases Nat.lt_or_gt_of_ne hne with hcd | hcd
  · have hlt : (c.toNat : ℤ) - d.toNat < 0 := by omega
    simp [hcd, hlt]
  · have hlt : ¬ (c.toNat : ℤ) - d.toNat < 0 := by omega
    have hgt : 0 < (c.toNat : ℤ) - d.toNat := by omega
    simp [hlt, hgt, Nat.not_lt.mpr hcd.le]

/-- **`fusefs_node_cmp` is lexicographic on `star`.**  On well-formed headers the comparator
returns the sign of the comparison of the two paths read up to their first NUL, a proper
prefix being smaller. -/
theorem fusefsNodeCmp_hdr (a b : Path) :
    fusefsNodeCmp a.hdr b.hdr = lexSign (star a) (star b) := by
  induction a generalizing b with
  | nil =>
    cases b with
    | nil => simp [fusefsNodeCmp_nil_left, lexSign]
    | cons d b =>
      obtain ⟨t, ht⟩ := star_head d b
      simp [fusefsNodeCmp_nil_left, lexSign, ht, List.nil_lt_cons]
  | cons c a ih =>
    cases b with
    | nil =>
      obtain ⟨t, ht⟩ := star_head c a
      simp [fusefsNodeCmp_nil_right, lexSign, ht, not_lt_nil]
    | cons d b =>
      by_cases hcd : c = d
      · subst hcd
        by_cases hc : c = 0
        · subst hc
          rw [fusefsNodeCmp_cons_zero, star_cons_zero, star_cons_zero, lexSign_cons_same,
            lexSign_zeros]
        · rw [fusefsNodeCmp_cons_same hc, star_cons_of_ne hc, star_cons_of_ne hc,
            lexSign_cons_same, ih]
      · obtain ⟨s, hs⟩ := star_head c a
        obtain ⟨t, ht⟩ := star_head d b
        rw [fusefsNodeCmp_cons_ne hcd, hs, ht, lexSign_cons_ne (toNat_ne_of_ne hcd)]

theorem fusefsNodeCmp_eq_neg_one_iff (a b : Path) :
    fusefsNodeCmp a.hdr b.hdr = -1 ↔ star a < star b := by
  rw [fusefsNodeCmp_hdr, lexSign]
  split_ifs with h1 <;> simp [h1]

theorem fusefsNodeCmp_eq_zero_iff (a b : Path) :
    fusefsNodeCmp a.hdr b.hdr = 0 ↔ star a = star b := by
  rw [fusefsNodeCmp_hdr, lexSign]
  split_ifs with h1 h2
  · simp [ne_of_lt h1]
  · simp [h2]
  · simp [h2]

/-! ## `fusefs_node_cmp` as an order -/

theorem lexSign_self (x : List ℕ) : lexSign x x = 0 := by simp [lexSign]

theorem lexSign_swap (x y : List ℕ) : lexSign x y = - lexSign y x := by
  unfold lexSign
  rcases lt_trichotomy x y with h | rfl | h
  · simp [h, not_lt.mpr h.le, h.ne']
  · simp
  · simp [h, not_lt.mpr h.le, h.ne, h.ne']

theorem lexSign_nonpos_iff (x y : List ℕ) : lexSign x y ≤ 0 ↔ x ≤ y := by
  unfold lexSign
  split_ifs with h₁ h₂
  · simp [h₁.le]
  · simp [h₂]
  · simpa using lt_of_le_of_ne (not_lt.mp h₁) (Ne.symm h₂)

/-! ## Paths without NUL bytes -/

/-- A path with no NUL byte: `fusefs_node_cmp` compares NUL-terminated strings, so on such
paths it compares the whole path. -/
def NulFree (p : Path) : Prop := ∀ c ∈ p, c ≠ 0

instance (p : Path) : Decidable (NulFree p) := inferInstanceAs (Decidable (∀ c ∈ p, c ≠ 0))

theorem star_of_nulFree {p : Path} (hp : NulFree p) : star p = p.map UInt8.toNat := by
  induction p with
  | nil => rfl
  | cons c p ih =>
    simp only [NulFree, List.mem_cons, forall_eq_or_imp] at hp
    rw [star_cons_of_ne hp.1, ih hp.2, List.map_cons]

theorem zero_mem_star_of_zero_mem {p : Path} (hp : (0 : UInt8) ∈ p) : 0 ∈ star p := by
  induction p with
  | nil => simp at hp
  | cons c p ih =>
    by_cases hc : c = 0
    · simp [star, hc]
    · rw [star_cons_of_ne hc]
      exact List.mem_cons_of_mem _ (ih ((List.mem_cons.mp hp).resolve_left (Ne.symm hc)))

/-- Against a NUL-free path, comparing equal is equality. -/
theorem eq_of_star_eq {k p : Path} (hk : NulFree k) (h : star p = star k) : p = k := by
  have hp : NulFree p := by
    intro c hc hc0
    subst hc0
    have := zero_mem_star_of_zero_mem hc
    rw [h, star_of_nulFree hk] at this
    obtain ⟨c, hc, hc0⟩ := List.mem_map.mp this
    exact hk c hc (UInt8.eq_of_val_eq (Fin.ext hc0))
  rw [star_of_nulFree hp, star_of_nulFree hk] at h
  exact List.map_injective_iff.mpr (fun _ _ he => UInt8.eq_of_val_eq (Fin.ext he)) h

/-! ## The comparator of the specification -/

/-- `memcmp` over the common length of two paths, as unsigned bytes: the difference of the
first pair of bytes that differ, or zero. -/
def memcmp : Path → Path → Int
  | c :: s₁, d :: s₂ => if c ≠ d then (c.toNat : Int) - d.toNat else memcmp s₁ s₂
  | _, _ => 0

/-- The comparator the specification describes: "lexicographic `memcmp` over
`min(a.len, b.len)` bytes; on tie, the shorter length is less". -/
def specNodeCmp (a b : Path) : Int :=
  let diff := memcmp a b
  if diff < 0 then -1
  else if diff > 0 then 1
  else if a.length < b.length then -1
  else if b.length < a.length then 1
  else 0

theorem specNodeCmp_cons_same (c : UInt8) (a b : Path) :
    specNodeCmp (c :: a) (c :: b) = specNodeCmp a b := by
  simp [specNodeCmp, memcmp]

theorem specNodeCmp_cons_ne {c d : UInt8} (h : c ≠ d) (a b : Path) :
    specNodeCmp (c :: a) (d :: b) = if c.toNat < d.toNat then -1 else 1 := by
  have hne := toNat_ne_of_ne h
  rcases Nat.lt_or_gt_of_ne hne with hcd | hcd
  · have hlt : (c.toNat : ℤ) - d.toNat < 0 := by omega
    simp [specNodeCmp, memcmp, h, hlt, hcd]
  · have hlt : ¬ (c.toNat : ℤ) - d.toNat < 0 := by omega
    have hgt : 0 < (c.toNat : ℤ) - d.toNat := by omega
    simp [specNodeCmp, memcmp, h, hlt, hgt, Nat.not_lt.mpr hcd.le]

/-- The specification's comparator is the lexicographic order of the bytes, NUL included. -/
theorem specNodeCmp_eq_lexSign (a b : Path) :
    specNodeCmp a b = lexSign (a.map UInt8.toNat) (b.map UInt8.toNat) := by
  induction a generalizing b with
  | nil => cases b <;> simp [specNodeCmp, memcmp, lexSign, List.nil_lt_cons]
  | cons c a ih =>
    cases b with
    | nil => simp [specNodeCmp, memcmp, lexSign, not_lt_nil]
    | cons d b =>
      by_cases hcd : c = d
      · subst hcd
        rw [specNodeCmp_cons_same, List.map_cons, List.map_cons, lexSign_cons_same, ih]
      · rw [specNodeCmp_cons_ne hcd, List.map_cons, List.map_cons,
          lexSign_cons_ne (toNat_ne_of_ne hcd)]

/-- **`fusefs_node_cmp` on paths.**  It returns the sign of the lexicographic comparison of
the paths read up to their first NUL, a proper prefix being smaller; it is therefore a total
preorder on all byte strings, the order `avl_find` and `avl_insert` need; and on paths without
NUL it is the specification's `memcmp` order and compares equal only equal paths. -/
theorem fusefsNodeCmp_lexicographic :
    (∀ a b : Path, fusefsNodeCmp a.hdr b.hdr = lexSign (star a) (star b)) ∧
    (∀ a : Path, fusefsNodeCmp a.hdr a.hdr = 0) ∧
    (∀ a b : Path, fusefsNodeCmp a.hdr b.hdr = - fusefsNodeCmp b.hdr a.hdr) ∧
    (∀ a b c : Path, fusefsNodeCmp a.hdr b.hdr ≤ 0 → fusefsNodeCmp b.hdr c.hdr ≤ 0 →
      fusefsNodeCmp a.hdr c.hdr ≤ 0) ∧
    (∀ a b : Path, NulFree a → NulFree b →
      fusefsNodeCmp a.hdr b.hdr = specNodeCmp a b ∧ (fusefsNodeCmp a.hdr b.hdr = 0 ↔ a = b)) := by
  refine ⟨fusefsNodeCmp_hdr, fun a => ?_, fun a b => ?_, fun a b c => ?_, fun a b ha hb => ?_⟩
  · rw [fusefsNodeCmp_hdr, lexSign_self]
  · rw [fusefsNodeCmp_hdr, fusefsNodeCmp_hdr, lexSign_swap]
  · simp only [fusefsNodeCmp_hdr, lexSign_nonpos_iff]
    exact le_trans
  · refine ⟨by rw [fusefsNodeCmp_hdr, star_of_nulFree ha, star_of_nulFree hb,
      specNodeCmp_eq_lexSign], ?_⟩
    rw [fusefsNodeCmp_eq_zero_iff]
    exact ⟨eq_of_star_eq hb, fun h => h ▸ rfl⟩

/-- Keys that differ only after an embedded NUL compare equal; the specification's `memcmp`
order tells them apart. -/
example : fusefsNodeCmp (Path.hdr [97, 0, 98]) (Path.hdr [97, 0, 99]) = 0 ∧
    specNodeCmp [97, 0, 98] [97, 0, 99] = -1 := by decide

/-! ## The search string of `fusefs_node_findcreate` -/

/-- The path `fusefs_node_findcreate` builds in `tmpbuf` (or in allocated memory when it is
longer): the directory name, the separator unless it is NUL, then the name. -/
def findcreateRpath (dirnm : Path) (sep : UInt8) (name : Path) : Path :=
  dirnm ++ (if sep ≠ 0 then [sep] else []) ++ name

/-- `rplen` as the code computes it is the length of the string it copies. -/
theorem findcreateRpath_length (dirnm : Path) (sep : UInt8) (name : Path) :
    (findcreateRpath dirnm sep name).length =
      dirnm.length + (if sep ≠ 0 then 1 else 0) + name.length := by
  by_cases hs : sep = 0 <;> simp [findcreateRpath, hs]; omega

end FusefsNode
