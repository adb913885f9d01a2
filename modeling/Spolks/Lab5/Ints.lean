import Spolks.Lib.MachineInt
import Spolks.Lab5.Peer

/-!
# `masterCalculateOnSlaves`: the arithmetic of `int`

Here the function is the list of its calls with their `int` arguments; an operation that
overflows, or that divides by zero, has no result. The loops are the same in both modes.

* `blockArgs_eq_peer`: the arguments are the offsets and the sizes of `Lab5/Peer.lean`.
* `masterInts_defined_iff`: for which numbers of processes all operations are defined.
-/

namespace Spolks.Lab5

open Lib Spolks.Matrix

abbrev CInt := MachineInt 2147483648

def CInt.zero : CInt := ⟨0, by decide, by decide⟩

def CInt.one : CInt := ⟨1, by decide, by decide⟩

/-- The calls of the master: `MPI_Send` or `MPI_Isend`, `MPI_Recv` or `MPI_Irecv`. -/
inductive MasterCall where
  | bcast (count : CInt)
  | sendSize (size dest : CInt)
  | sendRows (offset count dest : CInt)
  | recvResult (offset count source : CInt)
  | waitall (count : CInt)

structure BlockSizes where
  workersCount : CInt
  blockSize : CInt
  lastWorkerBlockSize : CInt

def blockSizes (N currentSize : CInt) : Option BlockSizes := do
  let workersCount ← currentSize.sub CInt.one
  let blockSize ← N.div workersCount
  let others ← workersCount.sub CInt.one
  let rows ← others.mul blockSize
  let lastWorkerBlockSize ← N.sub rows
  return ⟨workersCount, blockSize, lastWorkerBlockSize⟩

def currentWorkerBlockSize (b : BlockSizes) (i : CInt) : Option CInt := do
  let last ← b.workersCount.sub CInt.one
  return if i = last then b.lastWorkerBlockSize else b.blockSize

/-- The body of the first loop. -/
def sizeCall (b : BlockSizes) (i : CInt) : Option MasterCall := do
  let size ← currentWorkerBlockSize b i
  let dest ← i.add CInt.one
  return .sendSize size dest

/-- `N * i * block_size`, `current_worker_block_size * N` and `i + 1`. -/
structure BlockArgs where
  offset : CInt
  count : CInt
  rank : CInt

def blockArgs (N : CInt) (b : BlockSizes) (i : CInt) : Option BlockArgs := do
  let size ← currentWorkerBlockSize b i
  let row ← N.mul i
  let offset ← row.mul b.blockSize
  let count ← size.mul N
  let rank ← i.add CInt.one
  return ⟨offset, count, rank⟩

/-- The body of the second loop. -/
def rowsCall (N : CInt) (b : BlockSizes) (i : CInt) : Option MasterCall :=
  (blockArgs N b i).map fun args => .sendRows args.offset args.count args.rank

/-- The body of the third loop. -/
def resultCall (N : CInt) (b : BlockSizes) (i : CInt) : Option MasterCall :=
  (blockArgs N b i).map fun args => .recvResult args.offset args.count args.rank

/-- A loop over the workers. -/
def workersLoop (async : CInt) (b : BlockSizes) (body : CInt → Option MasterCall) :
    Option (List MasterCall) := do
  let calls ← MachineInt.loop body b.workersCount.val.toNat CInt.zero
  return if async.val = 0 then calls else calls ++ [.waitall b.workersCount]

def masterCalculateOnSlaves (N currentSize async : CInt) : Option (List MasterCall) := do
  let b ← blockSizes N currentSize
  let count ← N.mul N
  let sizes ← workersLoop async b (sizeCall b)
  let rows ← workersLoop async b (rowsCall N b)
  let results ← workersLoop async b (resultCall N b)
  return .bcast count :: sizes ++ rows ++ results

/-- A size is not negative, and a range of cells lies in the matrix. -/
def MasterCall.InMatrix (N : CInt) : MasterCall → Prop
  | .bcast count => count.val = N.val * N.val
  | .sendSize size _ => 0 ≤ size.val
  | .sendRows offset count _ | .recvResult offset count _ =>
    0 ≤ offset.val ∧ 0 ≤ count.val ∧ offset.val + count.val ≤ N.val * N.val
  | .waitall _ => True

/-- Worker `i` is sent its size and as many rows, and its result is received where these
begin. -/
def Served (N currentSize : CInt) (calls : List MasterCall) (i : Int) : Prop :=
  ∃ size offset count rank : CInt, rank.val = i + 1 ∧ count.val = size.val * N.val ∧
    offset.val = N.val * i * (N.val / (currentSize.val - 1)) ∧ .sendSize size rank ∈ calls ∧
    .sendRows offset count rank ∈ calls ∧ .recvResult offset count rank ∈ calls

/-! ## The sizes -/

/-- The three variables hold the numbers of the exact model. -/
structure BlockSizes.Of (n w : Nat) (b : BlockSizes) : Prop where
  workersCount : b.workersCount.val = w
  blockSize : b.blockSize.val = (n / w : Nat)
  lastWorkerBlockSize : b.lastWorkerBlockSize.val = blockRows n w (w - 1)

section

variable {N currentSize : CInt} {b : BlockSizes} {n w : Nat}

/-- With a worker the sizes are defined. -/
theorem exists_blockSizes (hN : N.val = n) (hsize : currentSize.val = w + 1) (hw : 1 ≤ w) :
    ∃ b, blockSizes N currentSize = some b ∧ b.Of n w := by
  have hone : CInt.one.val = 1 := rfl
  have hNhi := N.hi
  have hsizehi := currentSize.hi
  have hdivle : n / w ≤ n := Nat.div_le_self n w
  have hrowsle : (w - 1) * (n / w) ≤ n := pred_mul_div_le n w
  obtain ⟨workers, hworkers, hworkersval⟩ :=
    @MachineInt.exists_sub _ currentSize CInt.one (by omega) (by omega)
  have hw' : workers.val = w := by omega
  have hdiv : N.val.tdiv workers.val = (n / w : Nat) := by
    rw [hN, hw', Int.tdiv_eq_ediv_of_nonneg (Int.natCast_nonneg n)]
    exact (Int.natCast_ediv n w).symm
  have hdivnonneg : 0 ≤ ((n / w : Nat) : Int) := Int.natCast_nonneg _
  obtain ⟨block, hblock, hblockval⟩ :=
    @MachineInt.exists_div _ N workers (by omega) (by omega) (by omega)
  obtain ⟨others, hothers, hothersval⟩ :=
    @MachineInt.exists_sub _ workers CInt.one (by omega) (by omega)
  have hmul : others.val * block.val = ((w - 1) * (n / w) : Nat) := by
    rw [hblockval, hdiv, show others.val = (w - 1 : Nat) by omega, Int.natCast_mul]
  obtain ⟨rows, hrows, hrowsval⟩ :=
    @MachineInt.exists_mul _ others block (by omega) (by omega)
  obtain ⟨last, hlast, hlastval⟩ := @MachineInt.exists_sub _ N rows (by omega) (by omega)
  refine ⟨⟨workers, block, last⟩, ?_, hw', by rw [hblockval, hdiv], ?_⟩
  · simp only [blockSizes, Option.bind_eq_bind, hworkers, hblock, hothers, hrows, hlast,
      Option.bind_some, Option.pure_def]
  · show last.val = _
    rw [blockRows_last]
    omega

/-- Without one there is a division by zero. -/
theorem blockSizes_none (hsize : currentSize.val = 1) : blockSizes N currentSize = none := by
  cases h : blockSizes N currentSize with
  | none => rfl
  | some b =>
    obtain ⟨workers, hworkers, h⟩ := Option.bind_eq_some_iff.mp h
    obtain ⟨block, hblock, -⟩ := Option.bind_eq_some_iff.mp h
    have hval := MachineInt.sub_eq_some_iff.mp hworkers
    obtain ⟨hne, -⟩ := MachineInt.div_eq_some_iff.mp hblock
    rw [hsize] at hval
    exact absurd hval hne

theorem exists_currentWorkerBlockSize (hb : b.Of n w) {i : CInt} {k : Nat} (hi : i.val = k)
    (hk : k < w) : ∃ size, currentWorkerBlockSize b i = some size ∧ size.val = blockRows n w k := by
  have hone : CInt.one.val = 1 := rfl
  have hworkers := hb.workersCount
  have hworkershi := b.workersCount.hi
  obtain ⟨last, hlast, hlastval⟩ :=
    @MachineInt.exists_sub _ b.workersCount CInt.one (by omega) (by omega)
  refine ⟨if i = last then b.lastWorkerBlockSize else b.blockSize, ?_, ?_⟩
  · simp only [currentWorkerBlockSize, hlast]
    rfl
  · by_cases heq : i = last
    · have hkw : k = w - 1 := by
        rw [heq] at hi
        omega
      rw [if_pos heq, hb.lastWorkerBlockSize, hkw]
    · have hkw : k < w - 1 := by
        have hne : i.val ≠ last.val := fun h => heq (MachineInt.val_inj.mpr h)
        omega
      rw [if_neg heq, hb.blockSize, blockRows_of_lt hkw]

/-! ## The arguments -/

/-- Each iteration computes the offset and the size of the exact model. -/
theorem blockArgs_eq (hN : N.val = n) (hb : b.Of n w) {i : CInt} {k : Nat} (hi : i.val = k)
    (hk : k < w) {args : BlockArgs} (h : blockArgs N b i = some args) :
    n * k ≤ 2147483647 ∧ args.offset.val = (n * k * (n / w) : Nat) ∧
      args.count.val = blockCells n w k ∧ args.rank.val = k + 1 := by
  obtain ⟨size, hsize, h⟩ := Option.bind_eq_some_iff.mp h
  obtain ⟨row, hrow, h⟩ := Option.bind_eq_some_iff.mp h
  obtain ⟨offset, hoffset, h⟩ := Option.bind_eq_some_iff.mp h
  obtain ⟨count, hcount, h⟩ := Option.bind_eq_some_iff.mp h
  obtain ⟨rank, hrank, h⟩ := Option.bind_eq_some_iff.mp h
  cases h
  obtain ⟨size', hsize', hsizeval⟩ := exists_currentWorkerBlockSize hb hi hk
  obtain rfl : size = size' := Option.some.inj (hsize.symm.trans hsize')
  have hrowval : row.val = (n * k : Nat) := by
    rw [MachineInt.mul_eq_some_iff.mp hrow, hN, hi, Int.natCast_mul]
  refine ⟨?_, ?_, ?_, ?_⟩
  · have := row.hi
    omega
  · rw [MachineInt.mul_eq_some_iff.mp hoffset, hrowval, hb.blockSize, Int.natCast_mul (n * k)]
  · rw [MachineInt.mul_eq_some_iff.mp hcount, hsizeval, hN, blockCells, Int.natCast_mul]
  · rw [MachineInt.add_eq_some_iff.mp hrank, hi]
    rfl

/-- They are those of the processes' model. -/
theorem blockArgs_eq_peer {α : Type*} (p : Setup α) (hN : N.val = p.N)
    (hb : b.Of p.N p.workersCount) {i : CInt} {k : Nat} (hi : i.val = k) (hk : k < p.workersCount)
    {args : BlockArgs} (h : blockArgs N b i = some args) :
    args.offset.val = workerOffset p k ∧ args.count.val = (workerBlockSize p k * p.N : Nat) := by
  obtain ⟨-, hoffset, hcount, -⟩ := blockArgs_eq hN hb hi hk h
  exact ⟨hoffset, hcount⟩

/-- The first product is the only one that can overflow: the others are bounded by the number
of cells. -/
theorem isSome_blockArgs_iff (hN : N.val = n) (hsquare : n * n ≤ 2147483647) (hb : b.Of n w)
    {i : CInt} {k : Nat} (hi : i.val = k) (hk : k < w) :
    (blockArgs N b i).isSome = true ↔ n * k ≤ 2147483647 := by
  constructor
  · intro h
    obtain ⟨args, hargs⟩ := Option.isSome_iff_exists.mp h
    exact (blockArgs_eq hN hb hi hk hargs).1
  · intro hfits
    have hone : CInt.one.val = 1 := rfl
    have hworkers := hb.workersCount
    have hworkershi := b.workersCount.hi
    have hend : n * k * (n / w) + blockCells n w k ≤ n * n := part_end_le hk
    obtain ⟨size, hsize, hsizeval⟩ := exists_currentWorkerBlockSize hb hi hk
    have hrowval : N.val * i.val = (n * k : Nat) := by rw [hN, hi, Int.natCast_mul]
    obtain ⟨row, hrow, hrow'⟩ := @MachineInt.exists_mul _ N i (by omega) (by omega)
    have hoffsetval : row.val * b.blockSize.val = (n * k * (n / w) : Nat) := by
      rw [hrow', hrowval, hb.blockSize, Int.natCast_mul (n * k)]
    obtain ⟨offset, hoffset, -⟩ := @MachineInt.exists_mul _ row b.blockSize (by omega) (by omega)
    have hcountval : size.val * N.val = blockCells n w k := by
      rw [hsizeval, hN, blockCells, Int.natCast_mul]
    obtain ⟨count, hcount, -⟩ := @MachineInt.exists_mul _ size N (by omega) (by omega)
    obtain ⟨rank, hrank, -⟩ := @MachineInt.exists_add _ i CInt.one (by omega) (by omega)
    simp only [blockArgs, Option.bind_eq_bind, hsize, hrow, hoffset, hcount, hrank,
      Option.bind_some, Option.pure_def, Option.isSome_some]

/-! ## The loops -/

variable {async : CInt} {body : CInt → Option MasterCall} {calls : List MasterCall}

theorem exists_sizeCall (hb : b.Of n w) {i : CInt} {k : Nat} (hi : i.val = k) (hk : k < w) :
    ∃ size dest, sizeCall b i = some (.sendSize size dest) ∧ size.val = blockRows n w k ∧
      dest.val = k + 1 := by
  have hone : CInt.one.val = 1 := rfl
  have hworkers := hb.workersCount
  have hworkershi := b.workersCount.hi
  obtain ⟨size, hsize, hsizeval⟩ := exists_currentWorkerBlockSize hb hi hk
  obtain ⟨dest, hdest, hdestval⟩ := @MachineInt.exists_add _ i CInt.one (by omega) (by omega)
  refine ⟨size, dest, ?_, hsizeval, by omega⟩
  simp only [sizeCall, Option.bind_eq_bind, hsize, hdest, Option.bind_some, Option.pure_def]

/-- A loop over the workers is defined when each of its iterations is. -/
theorem isSome_workersLoop_iff (hb : b.Of n w) : (workersLoop async b body).isSome = true ↔
    ∀ i : CInt, ∀ k < w, i.val = (k : Nat) → (body i).isSome = true := by
  have hzero : CInt.zero.val = 0 := rfl
  have hworkers := hb.workersCount
  have hworkershi := b.workersCount.hi
  have hcount : b.workersCount.val.toNat = w := by omega
  have hloop : (workersLoop async b body).isSome =
      (MachineInt.loop body b.workersCount.val.toNat CInt.zero).isSome := by
    unfold workersLoop
    cases MachineInt.loop body b.workersCount.val.toNat CInt.zero <;> rfl
  rw [hloop, MachineInt.isSome_loop_iff (by omega), hcount]
  constructor
  · intro h i k hk hi
    exact h i (by omega) (by omega)
  · intro h j hle hlt
    exact h j j.val.toNat (by omega) (by omega)

/-- Its calls are those of the iterations, and possibly `MPI_Waitall`. -/
theorem mem_workersLoop (hb : b.Of n w) (h : workersLoop async b body = some calls) :
    (∀ i : CInt, ∀ k < w, i.val = (k : Nat) → ∀ call, body i = some call → call ∈ calls) ∧
      ∀ call ∈ calls, call = .waitall b.workersCount ∨
        ∃ i : CInt, ∃ k < w, i.val = (k : Nat) ∧ body i = some call := by
  have hzero : CInt.zero.val = 0 := rfl
  have hworkers := hb.workersCount
  have hcount : b.workersCount.val.toNat = w := by omega
  obtain ⟨cs, hcs, hcalls⟩ := Option.bind_eq_some_iff.mp h
  rw [hcount] at hcs
  have hmem : ∀ call, call ∈ cs ↔ ∃ i : CInt, ∃ k < w, i.val = (k : Nat) ∧ body i = some call := by
    intro call
    rw [MachineInt.mem_loop_iff hcs]
    constructor
    · rintro ⟨j, hle, hlt, hj⟩
      exact ⟨j, j.val.toNat, by omega, by omega, hj⟩
    · rintro ⟨j, k, hk, hj, hbody⟩
      exact ⟨j, by omega, by omega, hbody⟩
  have hcalls' : calls = cs ∨ calls = cs ++ [.waitall b.workersCount] := by
    cases hcalls
    split
    · exact Or.inl rfl
    · exact Or.inr rfl
  rcases hcalls' with rfl | rfl
  · exact ⟨fun i k hk hi call hcall => (hmem call).mpr ⟨i, k, hk, hi, hcall⟩,
      fun call hcall => Or.inr ((hmem call).mp hcall)⟩
  · refine ⟨fun i k hk hi call hcall => ?_, fun call hcall => ?_⟩
    · exact List.mem_append_left _ ((hmem call).mpr ⟨i, k, hk, hi, hcall⟩)
    · rcases List.mem_append.mp hcall with hcs' | hwait
      · exact Or.inr ((hmem call).mp hcs')
      · exact Or.inl (List.mem_singleton.mp hwait)

/-! ## The function -/

theorem isSome_master_iff {count : CInt} (hb : blockSizes N currentSize = some b)
    (hcount : N.mul N = some count) :
    (masterCalculateOnSlaves N currentSize async).isSome = true ↔
      (workersLoop async b (sizeCall b)).isSome = true ∧
        (workersLoop async b (rowsCall N b)).isSome = true ∧
          (workersLoop async b (resultCall N b)).isSome = true := by
  simp only [masterCalculateOnSlaves, Option.bind_eq_bind, hb, hcount, Option.bind_some]
  cases workersLoop async b (sizeCall b) with
  | none => simp
  | some sizes =>
    cases workersLoop async b (rowsCall N b) with
    | none => simp
    | some rows => cases workersLoop async b (resultCall N b) <;> simp

/-- With a worker, the operations are defined when the product of the last iteration is. -/
theorem isSome_master_iff_last (hN : N.val = n) (hsize : currentSize.val = w + 1) (hw : 1 ≤ w)
    (hsquare : n * n ≤ 2147483647) :
    (masterCalculateOnSlaves N currentSize async).isSome = true ↔ n * (w - 1) ≤ 2147483647 := by
  obtain ⟨b, hb, hof⟩ := exists_blockSizes hN hsize hw
  have hcountval : N.val * N.val = (n * n : Nat) := by rw [hN, Int.natCast_mul]
  obtain ⟨count, hcount, -⟩ := @MachineInt.exists_mul _ N N (by omega) (by omega)
  have hsizes : (workersLoop async b (sizeCall b)).isSome = true := by
    rw [isSome_workersLoop_iff hof]
    intro i k hk hi
    obtain ⟨size, dest, hcall, -⟩ := exists_sizeCall hof hi hk
    rw [hcall]
    rfl
  have hargs : (∀ i : CInt, ∀ k < w, i.val = (k : Nat) → (blockArgs N b i).isSome = true) ↔
      n * (w - 1) ≤ 2147483647 := by
    constructor
    · intro h
      have hworkers := hof.workersCount
      have hworkershi := b.workersCount.hi
      have hlast := h ⟨(w - 1 : Nat), by omega, by omega⟩ (w - 1) (by omega) rfl
      rwa [isSome_blockArgs_iff hN hsquare hof rfl (by omega)] at hlast
    · intro hlast i k hk hi
      rw [isSome_blockArgs_iff hN hsquare hof hi hk]
      exact (Nat.mul_le_mul_left n (by omega)).trans hlast
  rw [isSome_master_iff hb hcount, @isSome_workersLoop_iff b n w async (rowsCall N b) hof,
    @isSome_workersLoop_iff b n w async (resultCall N b) hof]
  simp only [rowsCall, resultCall, Option.isSome_map, hargs, hsizes, true_and, and_self]

/-- The parts of the list of calls. -/
theorem master_eq_some (hN : N.val = n) (hsize : currentSize.val = w + 1) (hw : 1 ≤ w)
    (h : masterCalculateOnSlaves N currentSize async = some calls) :
    ∃ b count sizes rows results, b.Of n w ∧ N.mul N = some count ∧
      workersLoop async b (sizeCall b) = some sizes ∧
      workersLoop async b (rowsCall N b) = some rows ∧
      workersLoop async b (resultCall N b) = some results ∧
      calls = .bcast count :: sizes ++ rows ++ results := by
  obtain ⟨b, hb, h⟩ := Option.bind_eq_some_iff.mp h
  obtain ⟨count, hcount, h⟩ := Option.bind_eq_some_iff.mp h
  obtain ⟨sizes, hsizes, h⟩ := Option.bind_eq_some_iff.mp h
  obtain ⟨rows, hrows, h⟩ := Option.bind_eq_some_iff.mp h
  obtain ⟨results, hresults, h⟩ := Option.bind_eq_some_iff.mp h
  cases h
  obtain ⟨b', hb', hof⟩ := exists_blockSizes hN hsize hw
  obtain rfl : b = b' := Option.some.inj (hb.symm.trans hb')
  exact ⟨b, count, sizes, rows, results, hof, hcount, hsizes, hrows, hresults, rfl⟩

theorem blockArgs_inMatrix (hN : N.val = n) (hb : b.Of n w) {i : CInt} {k : Nat} (hi : i.val = k)
    (hk : k < w) {args : BlockArgs} (h : blockArgs N b i = some args) :
    0 ≤ args.offset.val ∧ 0 ≤ args.count.val ∧
      args.offset.val + args.count.val ≤ N.val * N.val := by
  obtain ⟨-, hoffset, hcount, -⟩ := blockArgs_eq hN hb hi hk h
  have hend : n * k * (n / w) + blockCells n w k ≤ n * n := part_end_le hk
  rw [hoffset, hcount, hN]
  exact ⟨Int.natCast_nonneg _, Int.natCast_nonneg _, by exact_mod_cast hend⟩

/-- The calls of a loop whose iterations keep to the matrix. -/
theorem workersLoop_inMatrix (hb : b.Of n w) (h : workersLoop async b body = some calls)
    (hbody : ∀ i : CInt, ∀ k < w, i.val = (k : Nat) → ∀ call, body i = some call →
      call.InMatrix N) :
    ∀ call ∈ calls, call.InMatrix N := by
  intro call hcall
  rcases (mem_workersLoop hb h).2 call hcall with rfl | ⟨i, k, hk, hi, hbody'⟩
  · trivial
  · exact hbody i k hk hi call hbody'

theorem master_inMatrix (hN : N.val = n) (hsize : currentSize.val = w + 1) (hw : 1 ≤ w)
    (h : masterCalculateOnSlaves N currentSize async = some calls) :
    ∀ call ∈ calls, call.InMatrix N := by
  obtain ⟨b, count, sizes, rows, results, hof, hcount, hsizes, hrows, hresults, rfl⟩ :=
    master_eq_some hN hsize hw h
  intro call hcall
  rw [List.mem_append, List.mem_append, List.mem_cons] at hcall
  rcases hcall with ((rfl | hcall) | hcall) | hcall
  · exact MachineInt.mul_eq_some_iff.mp hcount
  · refine workersLoop_inMatrix hof hsizes (fun i k hk hi call hbody => ?_) call hcall
    obtain ⟨size, dest, hcall', hsizeval, -⟩ := exists_sizeCall hof hi hk
    rw [hbody] at hcall'
    cases hcall'
    show 0 ≤ size.val
    rw [hsizeval]
    exact Int.natCast_nonneg _
  · refine workersLoop_inMatrix hof hrows (fun i k hk hi call hbody => ?_) call hcall
    obtain ⟨args, hargs, rfl⟩ := Option.map_eq_some_iff.mp hbody
    exact blockArgs_inMatrix hN hof hi hk hargs
  · refine workersLoop_inMatrix hof hresults (fun i k hk hi call hbody => ?_) call hcall
    obtain ⟨args, hargs, rfl⟩ := Option.map_eq_some_iff.mp hbody
    exact blockArgs_inMatrix hN hof hi hk hargs

theorem master_served (hN : N.val = n) (hsize : currentSize.val = w + 1) (hw : 1 ≤ w)
    (h : masterCalculateOnSlaves N currentSize async = some calls) {k : Nat} (hk : k < w) :
    Served N currentSize calls k := by
  obtain ⟨b, count, sizes, rows, results, hof, hcount, hsizes, hrows, hresults, rfl⟩ :=
    master_eq_some hN hsize hw h
  have hworkers := hof.workersCount
  have hworkershi := b.workersCount.hi
  let i : CInt := ⟨k, by omega, by omega⟩
  have hi : i.val = k := rfl
  have hrowsSome : (rowsCall N b i).isSome = true :=
    (isSome_workersLoop_iff hof).mp (by rw [hrows]; rfl) i k hk hi
  rw [rowsCall, Option.isSome_map] at hrowsSome
  obtain ⟨args, hargs⟩ := Option.isSome_iff_exists.mp hrowsSome
  obtain ⟨-, hoffset, hcountval, hrank⟩ := blockArgs_eq hN hof hi hk hargs
  obtain ⟨size, dest, hcall, hsizeval, hdest⟩ := exists_sizeCall hof hi hk
  have hdestrank : dest = args.rank := MachineInt.val_inj.mpr (hdest.trans hrank.symm)
  refine ⟨size, args.offset, args.count, args.rank, hrank, ?_, ?_, ?_, ?_, ?_⟩
  · rw [hcountval, hsizeval, hN, blockCells, Int.natCast_mul]
  · rw [hoffset, hN, hsize, Int.add_sub_cancel]
    push_cast
    rfl
  · have hmem := (mem_workersLoop hof hsizes).1 i k hk hi _ hcall
    rw [hdestrank] at hmem
    exact List.mem_append_left _ (List.mem_append_left _ (List.mem_cons_of_mem _ hmem))
  · have hmem := (mem_workersLoop hof hrows).1 i k hk hi _ (by rw [rowsCall, hargs]; rfl)
    exact List.mem_append_left _ (List.mem_append_right _ hmem)
  · have hmem := (mem_workersLoop hof hresults).1 i k hk hi _ (by rw [resultCall, hargs]; rfl)
    exact List.mem_append_right _ hmem

/-- **Where the arithmetic is defined.** As long as the number of cells is an `int`, all
operations are defined exactly when there is a worker and the product of the side and the
last worker's index is an `int`; then all sizes are not negative and all ranges lie in the
matrix. -/
theorem masterInts_defined_iff (async : CInt) (hN : 1 ≤ N.val)
    (hsquare : N.val * N.val ≤ 2147483647) (hsize : 1 ≤ currentSize.val) :
    ((masterCalculateOnSlaves N currentSize async).isSome = true ↔
      2 ≤ currentSize.val ∧ N.val * (currentSize.val - 2) ≤ 2147483647) ∧
    ∀ calls, masterCalculateOnSlaves N currentSize async = some calls →
      (∀ call ∈ calls, call.InMatrix N) ∧
        ∀ i, 0 ≤ i → i < currentSize.val - 1 → Served N currentSize calls i := by
  obtain ⟨n, hn⟩ := Int.eq_ofNat_of_zero_le (show 0 ≤ N.val by omega)
  obtain ⟨w, hw⟩ := Int.eq_ofNat_of_zero_le (show 0 ≤ currentSize.val - 1 by omega)
  have hsize' : currentSize.val = w + 1 := by omega
  have hsquare' : n * n ≤ 2147483647 := by
    rw [hn] at hsquare
    exact_mod_cast hsquare
  rcases Nat.eq_zero_or_pos w with rfl | hpos
  · have hnone : masterCalculateOnSlaves N currentSize async = none := by
      simp only [masterCalculateOnSlaves, Option.bind_eq_bind,
        @blockSizes_none N currentSize (by omega), Option.bind_none]
    rw [hnone]
    refine ⟨⟨fun h => ?_, fun h => ?_⟩, fun calls h => ?_⟩
    · cases h
    · omega
    · cases h
  · have hlast : N.val * (currentSize.val - 2) = (n * (w - 1) : Nat) := by
      rw [hn, Int.natCast_mul, show currentSize.val - 2 = ((w - 1 : Nat) : Int) by omega]
    refine ⟨?_, fun calls h => ⟨master_inMatrix hn hsize' hpos h, fun i hi hlt => ?_⟩⟩
    · rw [isSome_master_iff_last hn hsize' hpos hsquare', hlast]
      omega
    · obtain ⟨k, rfl⟩ := Int.eq_ofNat_of_zero_le hi
      exact master_served hn hsize' hpos h (by omega)

end

/-- Three rows and two workers. -/
theorem masterInts_defined_threeByTwo :
    ∃ calls, masterCalculateOnSlaves ⟨3, by decide, by decide⟩ ⟨3, by decide, by decide⟩
        CInt.zero = some calls ∧
      Served ⟨3, by decide, by decide⟩ ⟨3, by decide, by decide⟩ calls 1 := by
  obtain ⟨hiff, hcalls⟩ := @masterInts_defined_iff ⟨3, by decide, by decide⟩
    ⟨3, by decide, by decide⟩ CInt.zero (by decide) (by decide) (by decide)
  obtain ⟨calls, hsome⟩ := Option.isSome_iff_exists.mp (hiff.mpr (by decide))
  exact ⟨calls, hsome, (hcalls calls hsome).2 1 (by decide) (by decide)⟩

end Spolks.Lab5
