import Adventure.Library.Ends
import Adventure.Store.Alloc
import Adventure.Struct.Darray

namespace Adventure

open Ends

inductive DarrayOp
  | push (elem : Nat) (fresh : Nat → Nat)
  | pop
  | set (i elem : Nat)
  | reserve (size : Nat) (fresh : Nat → Nat)
  | resize (size val : Nat) (fresh : Nat → Nat)
  | expand (fresh : Nat → Nat)
  | contract (fresh : Nat → Nat)

namespace Block

variable (block : Block) {i j : Nat} (elem : Nat)

@[simp] theorem put_length (i : Nat) : (block.put i elem).length = block.length := rfl

theorem put_self (i : Nat) : (block.put i elem).cell i = elem := Function.update_self ..

theorem put_of_ne (hne : j ≠ i) : (block.put i elem).cell j = block.cell j :=
  Function.update_of_ne hne ..

theorem realloc_cell (bytes : Nat) (fresh : Nat → Nat) (hi : i < block.length) :
    (block.realloc bytes fresh).cell i = block.cell i := if_pos hi

@[simp] theorem realloc_length (bytes : Nat) (fresh : Nat → Nat) :
    (block.realloc bytes fresh).length = bytes / SIZEOF_POINTER := rfl

variable {block elem}

theorem read_eq (h : i < block.length) : block.read i = some (block.cell i) := if_pos h

theorem read_put (h : i < block.length) : (block.put i elem).read i = some elem := by
  rw [read_eq (by exact h), put_self]

theorem read_put_of_ne (hne : j ≠ i) : (block.put i elem).read j = block.read j := by
  unfold read
  rw [put_of_ne _ _ hne, put_length]

theorem write_eq (h : i < block.length) (elem : Nat) : block.write i elem = some (block.put i elem) :=
  if_pos h

theorem write_eq_none (h : ¬i < block.length) (elem : Nat) : block.write i elem = none := if_neg h

theorem write_eq_some {block' : Block} (h : block.write i elem = some block') :
    i < block.length ∧ block' = block.put i elem := by
  by_cases hi : i < block.length
  · rw [write_eq hi] at h
    exact ⟨hi, (Option.some.inj h).symm⟩
  · rw [write_eq_none hi] at h
    cases h

end Block

theorem pointers_div (n : Nat) : n * SIZEOF_POINTER / SIZEOF_POINTER = n :=
  Nat.mul_div_cancel n (Nat.succ_pos 7)

namespace Darray

variable {arr arr' : Darray} {op : DarrayOp}

def step (arr : Darray) : DarrayOp → Option Darray
  | .push elem fresh => (darrayPush arr elem fresh).map Prod.snd
  | .pop => (darrayPop arr).map Prod.snd
  | .set i elem => darraySet arr i elem
  | .reserve size fresh => some (darrayReserve arr size fresh).2
  | .resize size val fresh => (darrayResize arr size val fresh).map Prod.snd
  | .expand fresh => some (darrayExpand arr fresh).2
  | .contract fresh => some (darrayContract arr fresh).2

-- No cells in use are given up, the block is not larger than a size_t can say, and the index of
-- darray_resize is an int (its loop does not run where the size is a negative int).
def InRange (arr : Darray) : DarrayOp → Prop
  | .push _ _ => arr.size < arr.maxSize ∨ arr.maxSize * 2 * SIZEOF_POINTER < 2 ^ 64
  | .pop | .set _ _ => True
  | .reserve size _ => size = 0 ∨ arr.size ≤ size ∧ size * SIZEOF_POINTER < 2 ^ 64
  | .resize size _ _ =>
      size ≤ INT_MAX ∨ size ≤ toSize (toInt arr.size) ∧ size * SIZEOF_POINTER < 2 ^ 64
  | .expand _ => arr.maxSize * 2 * SIZEOF_POINTER < 2 ^ 64
  | .contract _ => arr.maxSize < 2 ∨ arr.size ≤ arr.maxSize / 2

instance (arr : Darray) : (op : DarrayOp) → Decidable (arr.InRange op)
  | .push _ _ => inferInstanceAs (Decidable (_ ∨ _))
  | .pop | .set _ _ => .isTrue trivial
  | .reserve _ _ => inferInstanceAs (Decidable (_ ∨ _))
  | .resize _ _ _ => inferInstanceAs (Decidable (_ ∨ _))
  | .expand _ => inferInstanceAs (Decidable (_ < _))
  | .contract _ => inferInstanceAs (Decidable (_ ∨ _))

-- The states of all runs whose operations are in range.
inductive Reached : Darray → Prop
  | created {arr : Darray} (maxSize : Nat) : darrayCreate maxSize = some arr → Reached arr
  | step {arr arr' : Darray} (op : DarrayOp) : Reached arr → arr.InRange op →
      arr.step op = some arr' → Reached arr'

def run (allowed : Darray → DarrayOp → Prop) [∀ arr op, Decidable (allowed arr op)] :
    List DarrayOp → Darray → Option Darray
  | [], arr => some arr
  | op :: ops, arr => if allowed arr op then (arr.step op).bind (run allowed ops) else none

theorem Reached.run {ops : List DarrayOp} (hr : Reached arr)
    (hrun : Darray.run InRange ops arr = some arr') : Reached arr' :=
  guarded_rule (Darray.run InRange) InRange Darray.step Reached (fun _ => rfl) (fun _ _ _ => rfl)
    (fun _ op _ hr hrange hstep => .step op hr hrange hstep) hr hrun

-- The invariant of an array.
structure Kept (arr : Darray) : Prop where
  size_le : arr.size ≤ arr.maxSize
  length_eq : arr.data.length = arr.maxSize
  bytes_lt : arr.maxSize * SIZEOF_POINTER < 2 ^ 64

section Push

variable (elem : Nat) (fresh : Nat → Nat)

theorem push_room (hroom : arr.size < arr.maxSize) : darrayPush arr elem fresh =
    (arr.data.write arr.size elem).map fun data => (0, ⟨data, add64 arr.size 1, arr.maxSize⟩) := by
  unfold darrayPush
  rw [if_neg (Nat.not_le_of_lt hroom)]
  simp only [if_true, Option.bind_eq_bind]
  cases arr.data.write arr.size elem <;> rfl

-- An array that is full is doubled, unless the double is of no size.
theorem push_full (hfull : arr.maxSize ≤ arr.size) : darrayPush arr elem fresh =
    if mul64 arr.maxSize 2 = 0 then some (-1, arr) else
      ((arr.data.realloc (mul64 (mul64 arr.maxSize 2) SIZEOF_POINTER) fresh).write arr.size elem).map
        fun data => (0, ⟨data, add64 arr.size 1, mul64 arr.maxSize 2⟩) := by
  unfold darrayPush darrayExpand darrayReserve
  rw [if_pos hfull]
  by_cases hzero : mul64 arr.maxSize 2 = 0
  · rw [if_pos hzero, if_neg (by omega)]
    rfl
  · rw [if_neg hzero, if_pos (by omega)]
    simp only [if_true, Option.bind_eq_bind]
    cases Block.write _ arr.size elem <;> rfl

end Push

namespace Kept

variable (hk : Kept arr)

include hk

-- darray_reserve keeps the invariant unless it cuts off elements or its product wraps around.
theorem reserve_iff (size : Nat) (fresh : Nat → Nat) : Kept (darrayReserve arr size fresh).2 ↔
    size = 0 ∨ arr.size ≤ size ∧ size * SIZEOF_POINTER < 2 ^ 64 := by
  unfold darrayReserve
  by_cases hpos : size > 0
  · rw [if_pos hpos]
    constructor
    · intro h
      exact Or.inr ⟨h.size_le, h.bytes_lt⟩
    · intro h
      obtain ⟨hle, hlt⟩ := h.resolve_left (by omega)
      refine ⟨hle, ?_, hlt⟩
      change mul64 size SIZEOF_POINTER / SIZEOF_POINTER = size
      rw [mul64_eq hlt, pointers_div]
  · rw [if_neg hpos]
    exact iff_of_true hk (Or.inl (by omega))

theorem double_eq : mul64 arr.maxSize 2 = arr.maxSize * 2 := by
  have hlt := hk.bytes_lt
  unfold SIZEOF_POINTER at hlt
  exact mul64_eq (by omega)

theorem expand_iff (fresh : Nat → Nat) :
    Kept (darrayExpand arr fresh).2 ↔ arr.maxSize * 2 * SIZEOF_POINTER < 2 ^ 64 := by
  have hle := hk.size_le
  have hlt := hk.bytes_lt
  unfold SIZEOF_POINTER at hlt ⊢
  unfold darrayExpand
  rw [hk.double_eq, hk.reserve_iff]
  unfold SIZEOF_POINTER
  omega

theorem contract_iff (fresh : Nat → Nat) :
    Kept (darrayContract arr fresh).2 ↔ arr.maxSize < 2 ∨ arr.size ≤ arr.maxSize / 2 := by
  have hlt := hk.bytes_lt
  unfold darrayContract
  by_cases hsmall : arr.maxSize < 2
  · rw [if_pos hsmall]
    exact iff_of_true hk (Or.inl hsmall)
  · rw [if_neg hsmall, hk.reserve_iff]
    unfold SIZEOF_POINTER at hlt ⊢
    omega

-- The index of a set is checked against the end of the block.
theorem set (i elem : Nat) : ∃ arr', darraySet arr i elem = some arr' ∧ Kept arr' := by
  unfold darraySet
  by_cases hi : i < arr.maxSize
  · rw [if_pos hi, Block.write_eq (hk.length_eq ▸ hi)]
    refine ⟨_, rfl, ?_, hk.length_eq, hk.bytes_lt⟩
    have hle := hk.size_le
    change (if i > arr.size then i else arr.size) ≤ arr.maxSize
    split <;> omega
  · rw [if_neg hi]
    exact ⟨arr, rfl, hk⟩

theorem get (i : Nat) : ∃ elem, darrayGet arr i = some elem := by
  unfold darrayGet
  by_cases hi : i < arr.size
  · rw [if_pos hi, Block.read_eq (by rw [hk.length_eq]; exact hi.trans_le hk.size_le)]
    exact ⟨_, rfl⟩
  · rw [if_neg hi]
    exact ⟨0, rfl⟩

theorem pop : ∃ r, darrayPop arr = some r ∧ Kept r.2 := by
  have hle := hk.size_le
  have hlt := hk.bytes_lt
  unfold SIZEOF_POINTER at hlt
  unfold darrayPop
  by_cases hpos : arr.size > 0
  · have hsize : sub64 arr.size 1 = arr.size - 1 := sub64_eq (by omega) (by omega)
    have hin : arr.size - 1 < arr.data.length := by
      rw [hk.length_eq]
      omega
    rw [if_pos hpos]
    simp only [hsize, Block.read_eq hin, Option.bind_eq_bind, Option.bind_some]
    refine ⟨_, rfl, ?_, hk.length_eq, hk.bytes_lt⟩
    exact (Nat.sub_le arr.size 1).trans hle
  · rw [if_neg hpos]
    exact ⟨_, rfl, hk⟩

-- The part of darray_push behind the check of the size.
theorem append (hroom : arr.size < arr.maxSize) (elem : Nat) :
    Kept { arr with data := arr.data.put arr.size elem, size := add64 arr.size 1 } := by
  have hlt := hk.bytes_lt
  unfold SIZEOF_POINTER at hlt
  rw [add64_eq (by omega)]
  exact ⟨hroom, hk.length_eq, hk.bytes_lt⟩

theorem push {elem : Nat} {fresh : Nat → Nat} (hrange : arr.InRange (.push elem fresh)) :
    ∃ r, darrayPush arr elem fresh = some r ∧ Kept r.2 := by
  by_cases hfull : arr.maxSize ≤ arr.size
  · have hbytes : arr.maxSize * 2 * SIZEOF_POINTER < 2 ^ 64 :=
      hrange.resolve_left (Nat.not_lt_of_le hfull)
    have hle := hk.size_le
    rw [push_full elem fresh hfull, hk.double_eq]
    by_cases hzero : arr.maxSize * 2 = 0
    · rw [if_pos hzero]
      exact ⟨_, rfl, hk⟩
    · have hlength : (arr.data.realloc (mul64 (arr.maxSize * 2) SIZEOF_POINTER) fresh).length =
          arr.maxSize * 2 := by
        rw [Block.realloc_length, mul64_eq hbytes, pointers_div]
      have hk' : Kept ⟨arr.data.realloc (mul64 (arr.maxSize * 2) SIZEOF_POINTER) fresh, arr.size,
          arr.maxSize * 2⟩ := ⟨hle.trans (Nat.le_mul_of_pos_right _ Nat.two_pos), hlength, hbytes⟩
      rw [if_neg hzero, Block.write_eq (by omega)]
      refine ⟨_, rfl, hk'.append ?_ elem⟩
      change arr.size < arr.maxSize * 2
      omega
  · have hroom : arr.size < arr.maxSize := by omega
    rw [push_room elem fresh hroom, Block.write_eq (hk.length_eq ▸ hroom)]
    exact ⟨_, rfl, hk.append hroom elem⟩

-- Where the product wraps around, the new block ends in front of the element.
theorem push_overflow {elem : Nat} {fresh : Nat → Nat} (hrange : ¬arr.InRange (.push elem fresh)) :
    darrayPush arr elem fresh = none := by
  have hlt := hk.bytes_lt
  obtain ⟨hfull, hbytes⟩ := not_or.mp hrange
  unfold SIZEOF_POINTER at hlt hbytes
  have hlength : ¬arr.size <
      (arr.data.realloc (mul64 (arr.maxSize * 2) SIZEOF_POINTER) fresh).length := by
    rw [Block.realloc_length]
    unfold mul64 SIZEOF_POINTER
    omega
  rw [push_full elem fresh (Nat.not_lt.mp hfull), hk.double_eq, if_neg (by omega),
    Block.write_eq_none hlength]
  rfl

end Kept

theorem fill_length {size val : Nat} (steps : Nat) {i : Int} {data data' : Block}
    (h : darrayFill size val steps i data = some data') : data'.length = data.length := by
  induction steps generalizing i data with
  | zero => cases h
  | succ steps ih =>
      unfold darrayFill at h
      by_cases hi : toSize i < size
      · rw [if_pos hi, Option.bind_eq_bind, Option.bind_eq_some_iff] at h
        obtain ⟨data₁, hwrite, h⟩ := h
        obtain ⟨-, rfl⟩ := Block.write_eq_some hwrite
        by_cases hmax : i = INT_MAX
        · rw [if_pos hmax] at h
          cases h
        · rw [if_neg hmax] at h
          have hlength := ih h
          rwa [Block.put_length] at hlength
      · rw [if_neg hi] at h
        rw [Option.some.inj h]

-- A loop to a size behind INT_MAX overflows its index, or leaves the block before.
theorem fill_overflow {size val : Nat} (hsize : INT_MAX < size) (steps : Nat) {i : Int} (hlo : 0 ≤ i)
    (hhi : i ≤ INT_MAX) (data : Block) : darrayFill size val steps i data = none := by
  induction steps generalizing i data with
  | zero => rfl
  | succ steps ih =>
      unfold INT_MAX at hsize hhi
      have hi : toSize i < size := by
        unfold toSize
        omega
      unfold darrayFill
      rw [if_pos hi]
      cases data.write (toSize i) val with
      | none => rfl
      | some data₁ =>
          rw [Option.bind_eq_bind, Option.bind_some]
          by_cases hmax : i = INT_MAX
          · rw [if_pos hmax]
          · rw [if_neg hmax]
            unfold INT_MAX at hmax
            exact ih (by omega) (by unfold INT_MAX; omega) data₁

theorem toInt_bounds (n : Nat) : -2 ^ 31 ≤ toInt n ∧ toInt n ≤ INT_MAX := by
  unfold toInt INT_MAX
  rw [Int.bmod_def]
  split <;> omega

-- darray_resize sets both sizes, so that no elements are cut off.
theorem Kept.resize_bytes (hk : Kept arr) {size val : Nat} {fresh : Nat → Nat} {r : Int × Darray}
    (h : darrayResize arr size val fresh = some r) :
    Kept r.2 ↔ size * SIZEOF_POINTER < 2 ^ 64 := by
  unfold darrayResize darrayReserve at h
  by_cases hpos : size > 0
  · rw [if_pos hpos] at h
    simp only [if_true, Option.bind_eq_bind, Option.bind_eq_some_iff] at h
    obtain ⟨data, hfill, h⟩ := h
    obtain rfl := Option.some.inj h
    have hlength := fill_length _ hfill
    refine ⟨fun hk' => hk'.bytes_lt, fun hlt => ⟨le_rfl, ?_, hlt⟩⟩
    rwa [mul64_eq hlt, Block.realloc_length, pointers_div] at hlength
  · rw [if_neg hpos] at h
    obtain rfl := Option.some.inj h
    obtain rfl : size = 0 := by omega
    exact iff_of_true hk (by decide)

theorem Kept.resize_iff (hk : Kept arr) {size val : Nat} {fresh : Nat → Nat} {r : Int × Darray}
    (h : darrayResize arr size val fresh = some r) : Kept r.2 ↔ arr.InRange (.resize size val fresh) := by
  rw [hk.resize_bytes h]
  obtain ⟨hlo, hhi⟩ := toInt_bounds arr.size
  refine ⟨fun hbytes => ?_, fun hrange => ?_⟩
  · by_contra hnot
    obtain ⟨hlarge, hruns⟩ := not_or.mp hnot
    have hlt : toSize (toInt arr.size) < size := Nat.not_le.mp fun hle => hruns ⟨hle, hbytes⟩
    rw [Nat.not_le] at hlarge
    have hpos : 0 ≤ toInt arr.size := by
      unfold SIZEOF_POINTER at hbytes
      unfold toSize at hlt
      omega
    unfold darrayResize darrayReserve at h
    rw [if_pos (Nat.zero_lt_of_lt hlarge)] at h
    simp only [if_true, fill_overflow hlarge _ hpos hhi] at h
    cases h
  · rcases hrange with hsmall | ⟨-, hbytes⟩
    · unfold INT_MAX at hsmall
      unfold SIZEOF_POINTER
      omega
    · exact hbytes

-- One operation keeps the invariant if and only if it is in range.
theorem Kept.step_iff (hk : Kept arr) (hstep : arr.step op = some arr') :
    Kept arr' ↔ arr.InRange op := by
  cases op with
  | push elem fresh =>
      obtain ⟨r, hr, rfl⟩ := Option.map_eq_some_iff.mp hstep
      by_cases hrange : arr.InRange (.push elem fresh)
      · obtain ⟨r', hr', hk'⟩ := hk.push hrange
        obtain rfl := Option.some.inj (hr'.symm.trans hr)
        exact iff_of_true hk' hrange
      · rw [hk.push_overflow hrange] at hr
        cases hr
  | pop =>
      obtain ⟨r, hr, rfl⟩ := Option.map_eq_some_iff.mp hstep
      obtain ⟨r', hr', hk'⟩ := hk.pop
      obtain rfl := Option.some.inj (hr'.symm.trans hr)
      exact iff_of_true hk' trivial
  | set i elem =>
      obtain ⟨arr₁, hr, hk'⟩ := hk.set i elem
      obtain rfl := Option.some.inj (hr.symm.trans hstep)
      exact iff_of_true hk' trivial
  | reserve size fresh =>
      obtain rfl := Option.some.inj hstep
      exact hk.reserve_iff size fresh
  | resize size val fresh =>
      obtain ⟨r, hr, rfl⟩ := Option.map_eq_some_iff.mp hstep
      exact hk.resize_iff hr
  | expand fresh =>
      obtain rfl := Option.some.inj hstep
      exact hk.expand_iff fresh
  | contract fresh =>
      obtain rfl := Option.some.inj hstep
      exact hk.contract_iff fresh

theorem kept_created {maxSize : Nat} (h : darrayCreate maxSize = some arr) : Kept arr := by
  unfold darrayCreate at h
  by_cases hlt : maxSize * SIZEOF_POINTER < 2 ^ 64
  · rw [if_pos hlt] at h
    obtain rfl := Option.some.inj h
    exact ⟨Nat.zero_le maxSize, rfl, hlt⟩
  · rw [if_neg hlt] at h
    cases h

theorem Reached.kept (hr : Reached arr) : Kept arr := by
  induction hr with
  | created maxSize h => exact kept_created h
  | step op _ hrange hstep ih => exact (ih.step_iff hstep).mpr hrange

-- The capacity of an array in every state of a run whose operations are in range: the elements lie
-- in the block, and no access is outside of it.
theorem darray_capacity (hr : Reached arr) :
    arr.size ≤ arr.maxSize ∧ arr.data.length = arr.maxSize ∧
    (∀ i, ∃ elem, darrayGet arr i = some elem) ∧
    (∀ i elem, ∃ arr', darraySet arr i elem = some arr') ∧
    (∃ r, darrayPop arr = some r) ∧
    ∀ elem fresh, arr.InRange (.push elem fresh) → ∃ r, darrayPush arr elem fresh = some r := by
  have hk := hr.kept
  refine ⟨hk.size_le, hk.length_eq, hk.get, fun i elem => ?_, ?_, fun elem fresh hrange => ?_⟩
  · obtain ⟨arr', h, -⟩ := hk.set i elem
    exact ⟨arr', h⟩
  · obtain ⟨r, h, -⟩ := hk.pop
    exact ⟨r, h⟩
  · obtain ⟨r, h, -⟩ := hk.push hrange
    exact ⟨r, h⟩

-- An array for one element that two pushes make larger.
theorem darray_capacity_two : ∃ arr : Darray, arr.size = 2 ∧ arr.maxSize = 4 ∧
    arr.data.length = arr.maxSize := by
  have h : ((darrayCreate 1).bind (run InRange [.push 5 fun _ => 0, .push 6 fun _ => 0,
      .expand fun _ => 0])).map (fun arr => (arr.size, arr.maxSize)) = some (2, 4) := by decide +kernel
  obtain ⟨arr, hrun, hsizes⟩ := Option.map_eq_some_iff.mp h
  obtain ⟨arr₀, hcreate, hrun⟩ := Option.bind_eq_some_iff.mp hrun
  obtain ⟨hsize, hmax⟩ := Prod.mk.inj hsizes
  obtain ⟨-, hlength, -⟩ := darray_capacity ((Reached.created 1 hcreate).run hrun)
  exact ⟨arr, hsize, hmax, hlength⟩

-- darray_contract halves an array with three elements in four cells, and the third is read behind
-- the end of the block.
theorem darray_contract_cuts : ∃ arr : Darray, (darrayCreate 4).bind (run (fun _ _ => True)
    [.push 5 fun _ => 0, .push 6 fun _ => 0, .push 7 fun _ => 0, .contract fun _ => 0]) = some arr ∧
      arr.size = 3 ∧ arr.maxSize = 2 ∧ darrayGet arr 2 = none :=
  ⟨_, rfl, rfl, rfl, rfl⟩

-- What darray_set and a following darray_push are to do with an index in the block.
def SetLaw (arr : Darray) (i elem : Nat) : Prop := ∃ arr', darraySet arr i elem = some arr' ∧
  darrayGet arr' i = some elem ∧ (∀ j < arr.size, j ≠ i → darrayGet arr' j = darrayGet arr j) ∧
  arr'.size = max arr.size (i + 1) ∧
  ∀ elem' fresh, ∃ arr'', darrayPush arr' elem' fresh = some (0, arr'') ∧
    arr''.data.read arr'.size = some elem' ∧ arr''.data.read i = some elem

-- The cell of the index and the cell of the next push are there. They are unless a product has
-- wrapped around.
def Roomy (arr : Darray) (i : Nat) : Prop :=
  i < arr.data.length ∧ arr.size < if arr.size < arr.maxSize then arr.data.length
    else mul64 (mul64 arr.maxSize 2) SIZEOF_POINTER / SIZEOF_POINTER

theorem Kept.roomy (hk : Kept arr) {i : Nat} (hi : i < arr.maxSize)
    (hbytes : arr.maxSize * 2 * SIZEOF_POINTER < 2 ^ 64) : arr.Roomy i := by
  have hle := hk.size_le
  refine ⟨hk.length_eq ▸ hi, ?_⟩
  by_cases hroom : arr.size < arr.maxSize
  · rw [if_pos hroom, hk.length_eq]
    exact hroom
  · rw [if_neg hroom, hk.double_eq, mul64_eq hbytes, pointers_div]
    omega

section SetLaw

variable {i elem : Nat}

theorem set_eq (hi : i < arr.maxSize) (hcell : i < arr.data.length) (elem : Nat) :
    darraySet arr i elem =
      some ⟨arr.data.put i elem, if i > arr.size then i else arr.size, arr.maxSize⟩ := by
  unfold darraySet
  rw [if_pos hi, Block.write_eq hcell]
  rfl

-- A push behind the elements leaves them alone.
theorem push_reads (hroomy : arr.Roomy i) (hi : i < arr.size) (elem' : Nat) (fresh : Nat → Nat) :
    ∃ arr'', darrayPush arr elem' fresh = some (0, arr'') ∧
      arr''.data.read arr.size = some elem' ∧ arr''.data.read i = some (arr.data.cell i) := by
  obtain ⟨hcell, hnext⟩ := hroomy
  by_cases hroom : arr.size < arr.maxSize
  · rw [if_pos hroom] at hnext
    rw [push_room elem' fresh hroom, Block.write_eq hnext]
    refine ⟨_, rfl, Block.read_put hnext, ?_⟩
    exact (Block.read_put_of_ne hi.ne).trans (Block.read_eq hcell)
  · rw [if_neg hroom] at hnext
    have hzero : mul64 arr.maxSize 2 ≠ 0 := by
      intro h
      rw [h] at hnext
      cases hnext
    rw [push_full elem' fresh (Nat.not_lt.mp hroom), if_neg hzero, Block.write_eq hnext]
    refine ⟨_, rfl, Block.read_put hnext, (Block.read_put_of_ne hi.ne).trans ?_⟩
    rw [Block.read_eq (hi.trans hnext), Block.realloc_cell _ _ _ hcell]

theorem next_cell_of_push {elem' : Nat} {fresh : Nat → Nat} {arr'' : Darray}
    (h : darrayPush arr elem' fresh = some (0, arr'')) :
    arr.size < if arr.size < arr.maxSize then arr.data.length
      else mul64 (mul64 arr.maxSize 2) SIZEOF_POINTER / SIZEOF_POINTER := by
  by_cases hroom : arr.size < arr.maxSize
  · rw [push_room elem' fresh hroom, Option.map_eq_some_iff] at h
    obtain ⟨data, hwrite, -⟩ := h
    rw [if_pos hroom]
    exact (Block.write_eq_some hwrite).1
  · rw [push_full elem' fresh (Nat.not_lt.mp hroom)] at h
    rw [if_neg hroom]
    by_cases hzero : mul64 arr.maxSize 2 = 0
    · rw [if_pos hzero] at h
      cases h
    · rw [if_neg hzero, Option.map_eq_some_iff] at h
      obtain ⟨data, hwrite, -⟩ := h
      exact (Block.write_eq_some hwrite).1

-- darray_set does what it is to do at the elements of the array, and only there: at the end of the
-- array, or behind it, the size does not come to include the index.
theorem darray_set_law (hi : i < arr.maxSize) (elem : Nat) :
    arr.SetLaw i elem ↔ i < arr.size ∧ arr.Roomy i := by
  constructor
  · rintro ⟨arr', hset, -, -, hsize, hpush⟩
    have hcell : i < arr.data.length := by
      unfold darraySet at hset
      rw [if_pos hi, Option.bind_eq_bind, Option.bind_eq_some_iff] at hset
      obtain ⟨data, hwrite, -⟩ := hset
      exact (Block.write_eq_some hwrite).1
    rw [set_eq hi hcell] at hset
    obtain rfl := Option.some.inj hset
    have hlt : i < arr.size := by
      change (if i > arr.size then i else arr.size) = _ at hsize
      split at hsize <;> omega
    obtain ⟨arr'', hr, -⟩ := hpush 0 fun _ => 0
    have hnext := next_cell_of_push hr
    simp only [if_neg (Nat.not_lt_of_le hlt.le), Block.put_length] at hnext
    exact ⟨hlt, hcell, hnext⟩
  · rintro ⟨hlt, hcell, hnext⟩
    have hset := set_eq hi hcell elem
    rw [if_neg (Nat.not_lt_of_le hlt.le)] at hset
    refine ⟨_, hset, ?_, fun j hj hne => ?_, ?_, fun elem' fresh => ?_⟩
    · exact (if_pos hlt).trans (Block.read_put hcell)
    · unfold darrayGet
      rw [if_pos hj, if_pos hj, Block.read_put_of_ne hne]
    · change arr.size = max arr.size (i + 1)
      omega
    · have hroomy : Roomy ⟨arr.data.put i elem, arr.size, arr.maxSize⟩ i := ⟨hcell, hnext⟩
      obtain ⟨arr'', hr, hnew, hold⟩ := push_reads hroomy hlt elem' fresh
      exact ⟨arr'', hr, hnew, by rw [hold, Block.put_self]⟩

-- An array of three elements in three cells.
theorem darray_set_law_three : ∃ arr : Darray,
    ((darrayCreate 1).bind fun arr => darrayResize arr 3 5 fun _ => 0).map Prod.snd = some arr ∧
      arr.SetLaw 1 7 :=
  ⟨_, rfl, (darray_set_law (by decide) 7).mpr (by unfold Roomy; decide)⟩

-- An element that is set at the end of the array is not found, and the next push overwrites it.
theorem darray_set_lost : ∃ arr arr' arr'' : Darray, darrayCreate 4 = some arr ∧
    darraySet arr 0 7 = some arr' ∧ arr'.size = 0 ∧ darrayGet arr' 0 = some 0 ∧
    darrayPush arr' 9 (fun _ => 0) = some (0, arr'') ∧ arr''.data.read 0 = some 9 :=
  ⟨_, _, _, rfl, rfl, rfl, rfl, rfl, rfl⟩

end SetLaw

end Darray

end Adventure
