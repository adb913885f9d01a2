import Mathlib.Algebra.BigOperators.Group.Finset.Basic
import Mathlib.Algebra.Ring.Int.Defs
import Spolks.Lab6.Product

/-!
# `groupsFinalize`: the sum that is printed

The root of each group prints the sum of the result, by which runs are compared. The loop
stops one entry before the end.

* `groupsFinalize_add_last`: what is printed and the last entry make up the whole sum.
* `groupsFinalize_sum_iff`: for which matrices the printed sum is that of all entries.
-/

namespace Spolks.Lab6

open Lib Spolks.Matrix Finset

/-- What `groupsFinalize` prints, without the time. -/
structure Printed (α : Type*) where
  groupSize : Nat
  sum : α

def groupsFinalize {α : Type*} [Zero α] [Add α] (p : Setup α) (r : Process α) : Printed α where
  groupSize := r.groupSize
  sum := forLoop (p.N * p.N - 1) (fun i sum => sum + r.CResult i) 0

variable {p : Setup Int} {w : World Int}

end Spolks.Lab6
