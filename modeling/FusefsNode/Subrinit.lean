import Mathlib.Algebra.Order.Ring.Int

/-!
# `fusefs_subrinit`: the target size of the node cache

`fusefs_subrinit` sets the global `long nfusenode`, the number of nodes that `make_fusenode`
and `fusefs_addfree` try to keep, from its tunable value, the name cache's `int ncsize`, and
`nfusenode_max`, a quarter of `kmem_maxavail()` counted in nodes.  Integers of C are
integers here, with the range of their type as a hypothesis (`IsLong`, `IsInt`), and the
one conversion the code makes is explicit: the test `nfusenode > nfusenode_max` compares a
`long` with a `ulong_t`, so the `long` is converted to unsigned (`toUlong`), and a negative
`ncsize` becomes a huge value that the test clamps.

## Strategy

`nfusenode_max` is below `2 ^ 62` (`nfusenodeMax_lt`), so every value the function can
assign is a `long`, and a `long` below zero converts to more than the maximum.  With these two
facts each branch of `subrinitNfusenode` is linear arithmetic, and `subrinit_nfusenode`
reads the result in closed form: the tunable if it is positive, else `ncsize` if that is
positive, each clamped to the maximum, else the maximum.  The result is never negative and
converts to `ulong_t` unchanged, so the unsigned comparisons with `fusenodenew` in
`make_fusenode` and `fusefs_addfree` are the comparisons of naturals that the model makes
with `Cache.nfusenode`.
-/

namespace FusefsNode

/-- A value of a 64-bit `long`. -/
def IsLong (x : ℤ) : Prop := -2 ^ 63 ≤ x ∧ x < 2 ^ 63

/-- A value of a 32-bit `int`. -/
def IsInt (x : ℤ) : Prop := -2 ^ 31 ≤ x ∧ x < 2 ^ 31

/-- The usual arithmetic conversion of a `long` to `ulong_t`. -/
def toUlong (x : ℤ) : ℕ := (x % 2 ^ 64).toNat

/-- `nfusenode_max`: `(kmem_maxavail() >> 2) / sizeof (struct fusenode)`. -/
def nfusenodeMax (maxavail size : ℕ) : ℕ := (maxavail >>> 2) / size

/-- The `nfusenode` that `fusefs_subrinit` leaves, from the tunable `nfusenode`, `ncsize`
and `nfusenode_max`. -/
def subrinitNfusenode (nfusenode ncsize : ℤ) (nfusenodeMax : ℕ) : ℤ :=
  let nfusenode := if nfusenode ≤ 0 then ncsize else nfusenode
  if nfusenodeMax < toUlong nfusenode ∨ (nfusenode = 0 ∧ ncsize = 0) then nfusenodeMax
  else nfusenode

theorem nfusenodeMax_lt {maxavail : ℕ} (size : ℕ) (hm : maxavail < 2 ^ 64) :
    nfusenodeMax maxavail size < 2 ^ 62 := by
  have := Nat.div_le_self (maxavail / 2 ^ 2) size
  rw [nfusenodeMax, Nat.shiftRight_eq_div_pow]
  omega

/-- **`fusefs_subrinit` sizes the cache within its bounds.**  For every tunable `nfusenode`
and `ncsize` in the range of their types, the new `nfusenode` is the tunable if it is
positive, else `ncsize` if that is positive, each clamped to `nfusenode_max`, else
`nfusenode_max`; it lies between zero and `nfusenode_max`, is positive whenever the maximum
is, and converts to `ulong_t` unchanged. -/
theorem subrinit_nfusenode (nfusenode ncsize : ℤ) (maxavail size : ℕ)
    (hn : IsLong nfusenode) (hc : IsInt ncsize) (hm : maxavail < 2 ^ 64) :
    subrinitNfusenode nfusenode ncsize (nfusenodeMax maxavail size) =
        (if 0 < nfusenode then min nfusenode (nfusenodeMax maxavail size)
          else if 0 < ncsize then min ncsize (nfusenodeMax maxavail size)
          else nfusenodeMax maxavail size) ∧
      0 ≤ subrinitNfusenode nfusenode ncsize (nfusenodeMax maxavail size) ∧
      subrinitNfusenode nfusenode ncsize (nfusenodeMax maxavail size) ≤ nfusenodeMax maxavail size ∧
      (0 < nfusenodeMax maxavail size → 0 < subrinitNfusenode nfusenode ncsize (nfusenodeMax maxavail size)) ∧
      toUlong (subrinitNfusenode nfusenode ncsize (nfusenodeMax maxavail size)) =
        (subrinitNfusenode nfusenode ncsize (nfusenodeMax maxavail size)).toNat := by
  have hM := nfusenodeMax_lt size hm
  unfold IsLong at hn
  unfold IsInt at hc
  simp only [subrinitNfusenode, toUlong, min_def]
  split_ifs <;> omega

/-- With no tunable set and a negative `ncsize`, the unsigned test clamps `nfusenode` to the
maximum: a quarter of `2 ^ 30` bytes in nodes of 256 bytes. -/
theorem subrinit_nfusenode_negative_ncsize :
    IsLong 0 ∧ IsInt (-1) ∧ (2 ^ 30 : ℕ) < 2 ^ 64 ∧
      subrinitNfusenode 0 (-1) (nfusenodeMax (2 ^ 30) 256) = 2 ^ 20 := by
  have hn : IsLong 0 := by unfold IsLong; decide
  have hc : IsInt (-1) := by unfold IsInt; decide
  have hm : (2 ^ 30 : ℕ) < 2 ^ 64 := by decide
  exact ⟨hn, hc, hm, (subrinit_nfusenode 0 (-1) (2 ^ 30) 256 hn hc hm).1.trans (by decide)⟩

end FusefsNode
