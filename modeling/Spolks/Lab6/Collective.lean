import Spolks.Lib.Terminated
import Spolks.Lib.Tiling
import Spolks.Matrix.Product
import Spolks.Matrix.Partition
import Spolks.Lab6.Groups

/-!
# `Lab6/mpi-collective.c`: the product inside each group

Every process runs the same sequence of collective calls, so the program is a sequence of
functions on the memories of all ranks (`World`). `MPI_Comm_split` with equal keys puts the
ranks of one group number into a communicator in the order of their ranks (`members`);
`MPI_Scatter` and `MPI_Gatherv` work inside it, with its first member as the root.

A call has no result (`none`) where the program divides by zero, writes outside of
`group_numbers`, or builds a file name that the array `rank` has no room for. The files can be
opened, and sizes are exact: the program counts the `N * N` cells in an `int`.
-/

namespace Spolks.Lab6

open Lib Spolks.Matrix

/-- The command line, the results of `rand()`, the matrices of rank `0`, and what `malloc`
returns to each rank. -/
structure Setup (α : Type*) where
  globalSize : Nat
  groupsCount : Int
  N : Nat
  rand : Nat → Nat
  A : Nat → α
  B : Nat → α
  mallocA : Nat → Nat → α
  mallocB : Nat → Nat → α
  mallocC : Nat → Nat → α

/-- The global variables of one process. -/
structure Process (α : Type*) where
  groupNumbers : Int → Int
  groupNumber : Int
  groupSize : Nat
  groupRank : Nat
  A : Nat → α
  B : Nat → α
  CResult : Nat → α
  groupScatterSizes : Nat → Nat
  groupScatterDisplacements : Nat → Nat
  scatterSize : Nat
  scatterDisplacement : Nat
  CBlock : Nat → α

/-- The memory of every rank. -/
abbrev World (α : Type*) := Nat → Process α

section

variable {α : Type*} [Zero α] [Add α] [Mul α] (p : Setup α)

/-- Before the first call: rank `0` has read the matrices, the others have fresh memory. -/
def start : World α := fun r =>
  { groupNumbers := fun _ => 0
    groupNumber := 0
    groupSize := 0
    groupRank := 0
    A := if r = 0 then p.A else p.mallocA r
    B := if r = 0 then p.B else p.mallocB r
    CResult := p.mallocC r
    groupScatterSizes := fun _ => 0
    groupScatterDisplacements := fun _ => 0
    scatterSize := 0
    scatterDisplacement := 0
    CBlock := fun _ => 0 }

/-! ## Communicators -/

/-- The ranks of a group in the order of its communicator. -/
def members (w : World α) (g : Int) : List Nat :=
  (List.range p.globalSize).filter fun q => (w q).groupNumber = g

/-- The rank in `MPI_COMM_WORLD` of member `j` of the group of `r`. -/
def member (w : World α) (r j : Nat) : Nat := (members p w (w r).groupNumber)[j]?.getD r

/-- The loop of rank `0`, which may divide by zero or write outside of the array. -/
def drawGroups : Option Groups :=
  let root := prepareGroups p.globalSize p.groupsCount p.rand
  if root.stopped = false ∧ InRange p.globalSize root then some root else none

/-- The grouping that rank `0` draws is broadcast, then the communicator is split by it. -/
def groupsPrepare (w : World α) : Option (World α) :=
  (drawGroups p).map fun root =>
    let w' : World α := fun r =>
      { w r with groupNumbers := root.groupNumbers, groupNumber := root.groupNumbers r }
    fun r =>
      { w' r with
        groupSize := (members p w' (w' r).groupNumber).length
        groupRank := (members p w' (w' r).groupNumber).idxOf r }

/-! ## The calculation -/

/-- Both matrices are broadcast; the roots of the groups allocate the result. -/
def prepareCalculate (w : World α) : World α := fun r =>
  { w r with
    A := writeBlock (w r).A 0 (readBlock (w 0).A 0 (p.N * p.N))
    B := writeBlock (w r).B 0 (readBlock (w 0).B 0 (p.N * p.N))
    CResult := if (w r).groupRank = 0 then p.mallocC r else (w r).CResult }

/-- Iteration `i` of the loop that fills the two arrays at the root of a group. -/
def fillScatter (groupSize i : Nat) (arrays : (Nat → Nat) × (Nat → Nat)) :
    (Nat → Nat) × (Nat → Nat) :=
  let workerScatterSize := p.N / groupSize
  let lastWorkerScatterSize := p.N - (groupSize - 1) * workerScatterSize
  let sizes := Function.update arrays.1 i
    ((if i = groupSize - 1 then lastWorkerScatterSize else workerScatterSize) * p.N)
  (sizes, Function.update arrays.2 i
    (if i = 0 then 0 else arrays.2 (i - 1) + sizes (i - 1)))

/-- The two arrays of a process: `calloc` clears them, the root of a group fills them. -/
def scatterArrays (r : Process α) : (Nat → Nat) × (Nat → Nat) :=
  if r.groupRank = 0 then forLoop r.groupSize (fillScatter p r.groupSize) (fun _ => 0, fun _ => 0)
  else (fun _ => 0, fun _ => 0)

def prepareScatter (w : World α) : World α := fun r =>
  { w r with
    groupScatterSizes := (scatterArrays p (w r)).1
    groupScatterDisplacements := (scatterArrays p (w r)).2 }

/-- Member `j` of a group receives element `j` of the arrays of its root. -/
def scatter (w : World α) : World α := fun r =>
  { w r with
    scatterSize := (w (member p w r 0)).groupScatterSizes (w r).groupRank
    scatterDisplacement := (w (member p w r 0)).groupScatterDisplacements (w r).groupRank }

/-- `A_block = &A[scatter_displacement]`. -/
def Process.ABlock (r : Process α) : Nat → α := fun k => r.A (r.scatterDisplacement + k)

/-- The loop nest; the outer loop advances by `N`. -/
def scatterCalculateBlock (r : Process α) (CBlock : Nat → α) : Nat → α :=
  forStep r.scatterSize p.N (multiplyRow p.N r.ABlock r.B) r.scatterSize 0 CBlock

/-- Every process multiplies its rows into a block that `calloc` has cleared. -/
def calculateBlocks (w : World α) : World α := fun r =>
  { w r with CBlock := scatterCalculateBlock p (w r) fun _ => 0 }

/-- The size of the array `rank`. -/
def rankSize : Nat := 7

def suffix : List UInt8 := ascii ".txt\n"

/-- What `saveBlockToFile` leaves in the memory from `rank` on. -/
def rank (stack : Nat → UInt8) (groupNumber : Int) : Nat → UInt8 :=
  let rank := strcpy 0 stack (intText groupNumber)
  strcat 0 rank ((intText groupNumber).length + 1) suffix

/-- The name of the file, as `strcat` returns it. -/
def fileName (groupNumber : Int) : List UInt8 := intText groupNumber ++ suffix

/-- The bytes that the name takes with its terminator. -/
def rankNeeds (groupNumber : Int) : Nat := (fileName groupNumber).length + 1

/-- The name of a file and the lines that are appended to it: the global rank and a cell of the
block each. What happens when the name runs over the end of the array is not known. -/
def saveBlockToFile (globalRank : Nat) (r : Process α) :
    Option (List UInt8 × List (Nat × α)) :=
  if rankNeeds r.groupNumber ≤ rankSize then
    some (fileName r.groupNumber,
      forStep r.scatterSize p.N
        (fun i lines => forLoop p.N (fun j lines => lines ++ [(globalRank, r.CBlock (i + j))]) lines)
        r.scatterSize 0 [])
  else none

/-- Every process saves its block, and keeps its memory. -/
def saveBlocks (w : World α) : Option (World α) :=
  if (List.range p.globalSize).all fun r => (saveBlockToFile p r (w r)).isSome then some w
  else none

/-- Every member sends as much as its root asks for. -/
def gathervFits (w : World α) : Bool :=
  (List.range p.globalSize).all fun r =>
    (w r).scatterSize = (w (member p w r 0)).groupScatterSizes (w r).groupRank

/-- The root of each group stores the members' blocks at its displacements. -/
def gathered (w : World α) : World α := fun r =>
  { w r with
    CResult :=
      if (w r).groupRank = 0 then
        gather (w r).groupScatterDisplacements
          (fun j => readBlock (w (member p w r j)).CBlock 0 (w (member p w r j)).scatterSize)
          (w r).groupSize (w r).CResult
      else (w r).CResult }

def gatherv (w : World α) : Option (World α) :=
  if gathervFits p w then some (gathered p w) else none

def scatterCalculate (w : World α) : Option (World α) := do
  let w' ← saveBlocks p (calculateBlocks p (scatter p (prepareScatter p w)))
  gatherv p w'

/-- `main` from `groupsPrepare` to `scatterCalculate`. -/
def run : Option (World α) := do
  let w ← groupsPrepare p (start p)
  scatterCalculate p (prepareCalculate p w)

end

end Spolks.Lab6
