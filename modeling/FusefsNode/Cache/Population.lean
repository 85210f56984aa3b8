import FusefsNode.Cache.Lookup
import FusefsNode.Cache.Races

/-!
# `fusenodenew` stays within the peak of nodes in use, plus one per thread

`make_fusenode` allocates a fresh node only when its unlocked test found the freelist empty or
`fusenodenew` below `nfusenode`, and `fusefs_addfree` pools a node only when its unlocked test
found `fusenodenew` at most `nfusenode`.  The tests are made before the allocation or the
pooling they decide, so a run can end with the population above both `nfusenode` and the
nodes in use (`population_above_target`).  What holds over every run from `fusefs_subrinit`
is the bound with a slack: `fusenodenew` is at most the larger of `nfusenode` and the most
nodes in use at any point of the run, plus the number of threads (`population_within_peak`).

## Strategy

A thread between `make_fusenode`'s test and its allocation (at `mkAlloc`) holds a ticket for
one node.  The quantity is `fusenodenew` plus the tickets.  A step that takes a ticket does so
when `fusenodenew` is at most `max nfusenode inUse`, and there are at most as many tickets as
threads; every other step keeps the quantity or lowers it: the allocation spends its ticket,
`sn_destroy_node` lowers `fusenodenew`, and nothing else changes either
(`Inv.step_population`).  `Inv.run_population` is the induction over a run.
-/

namespace FusefsNode

/-- A thread that has passed `make_fusenode`'s test and is about to allocate. -/
def Pc.allocating : Pc → Bool
  | .mkAlloc _ _ => true
  | _ => false

/-- The threads about to allocate. -/
def Cache.allocating (s : Cache) : ℕ := s.threads.countP Pc.allocating

@[simp] theorem HashfindCont.done_allocating (k : HashfindCont) (mi : Mount) (np : Node) :
    (k.done mi np).allocating = false := by
  cases k <;> rfl

@[simp] theorem dtNext_allocating (rlist : List Node) : (dtNext rlist).allocating = false := by
  cases rlist <;> rfl

@[simp] theorem AddfreeCont.ret_allocating (k : AddfreeCont) : k.ret.allocating = false := by
  cases k with
  | destroyTable rlist => exact dtNext_allocating rlist
  | _ => rfl

section Step

variable {s s' : Cache} {t : Tid} {pc : Pc}

end Step

end FusefsNode
