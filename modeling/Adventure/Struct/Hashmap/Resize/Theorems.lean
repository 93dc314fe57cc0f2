import Adventure.Struct.Hashmap.Resize

namespace Adventure

open Ends

-- `addrs` are what calloc returns for the entries and elements of the new buckets.
inductive ResizeOp (κ : Type)
  | call (op : HashOp κ)
  | resize (size : Nat) (addrs : List (Nat × Nat))

-- A call as its caller sees it, without the addresses that calloc returns.
inductive HashCall (κ : Type)
  | get (key : κ)
  | contains (key : κ)
  | set (key : κ) (val : Nat)
  | remove (key : κ)

def HashCall.op {κ : Type} (entry elem : Nat) : HashCall κ → HashOp κ
  | get key => .get key
  | contains key => .contains key
  | set key val => .set key val entry elem
  | remove key => .remove key

section Reference

variable {κ : Type} (compare : κ → κ → Int)

-- hmap_resize turns the stacks around.
def resizeStep (held : κ → List Nat) : ResizeOp κ → HashResult × (κ → List Nat)
  | .call op => stacksStep compare held op
  | .resize _ _ => (.done, fun k => (held k).reverse)

-- The results of some calls on the stacks.
def stacksResults : List (HashCall κ) → (κ → List Nat) → List HashResult
  | [], _ => []
  | call :: calls, held =>
      let r := stacksStep compare held (call.op 0 0)
      r.1 :: stacksResults calls r.2

end Reference

namespace HashRun

variable {κ : Type}

def resizeStep (st : HashRun κ) : ResizeOp κ → Option (HashResult × HashRun κ)
  | .call op => st.step op
  | .resize size addrs => do
      let r ← hmapResize st.heap st.map size addrs
      return (.done, ⟨r.1, r.2⟩)

-- A resize is to at least one bucket, and calloc has an address for each entry.
def ResizePermits (st : HashRun κ) : ResizeOp κ → Prop
  | .call op => st.Permits op
  | .resize size addrs => 0 < size ∧ hmapCount st.map ≤ addrs.length ∧ FreshAddrs st.heap addrs

instance (st : HashRun κ) : (op : ResizeOp κ) → Decidable (st.ResizePermits op)
  | .call op => inferInstanceAs (Decidable (st.Permits op))
  | .resize _ _ => inferInstanceAs (Decidable (_ ∧ _))

-- The states of all runs with resizes, with what the stacks are then.
inductive Resized (hash : κ → UInt32) (compare : κ → κ → Int) : HashRun κ → (κ → List Nat) → Prop
  | created (h : HashHeap κ) (size : Nat) : 0 < size →
      Resized hash compare ⟨h, hmapEmpty size hash compare⟩ fun _ => []
  | step {st st' : HashRun κ} {held : κ → List Nat} {result : HashResult} (op : ResizeOp κ) :
      Resized hash compare st held → st.ResizePermits op → st.resizeStep op = some (result, st') →
      Resized hash compare st' (Adventure.resizeStep compare held op).2

-- A run without resizes is a run.
theorem Reached.resized {hash : κ → UInt32} {compare : κ → κ → Int} {size : Nat} (hsize : 0 < size)
    {st : HashRun κ} {held : κ → List Nat} (hr : Reached size hash compare st held) :
    Resized hash compare st held := by
  induction hr with
  | created h => exact .created h size hsize
  | step op _ hop hstep ih => exact .step (.call op) ih hop hstep

-- `results` are what `calls` return from the state on, whatever addresses calloc has for them.
def Answers : HashRun κ → List (HashCall κ) → List HashResult → Prop
  | _, [], results => results = []
  | st, call :: calls, results => ∀ entry elem, st.Permits (call.op entry elem) →
      ∃ result results' st', results = result :: results' ∧
        st.step (call.op entry elem) = some (result, st') ∧ Answers st' calls results'

variable {hash : κ → UInt32} {compare : κ → κ → Int} {st : HashRun κ} {held : κ → List Nat}

-- A resize of too many buckets, or to too many, has no result.
theorem resize_stuck {size : Nat} {addrs : List (Nat × Nat)}
    (hk : Kept st.map.size hash compare st held)
    (hbad : ¬(st.map.size ≤ INT_MAX ∧ size * SIZEOF_POINTER < 2 ^ 64)) :
    st.resizeStep (.resize size addrs) = none := by
  obtain ⟨-, chains, hc, -⟩ := hk
  have hnone : hmapResize st.heap st.map size addrs = none := by
    by_cases hmax : st.map.size ≤ INT_MAX
    · unfold hmapResize
      exact if_neg fun hbytes => hbad ⟨hmax, hbytes⟩
    · exact hc.resize_overflow (Nat.not_le.mp hmax)
  rw [resizeStep, hnone]
  rfl

theorem stacksStep_op (held : κ → List Nat) (call : HashCall κ) (entry elem : Nat) :
    stacksStep compare held (call.op entry elem) = stacksStep compare held (call.op 0 0) := by
  cases call <;> rfl

-- Removals take the stack of their key apart.
theorem stacksResults_removes {key : κ} (hrefl : compare key key = 0) (vals : List Nat)
    (hheld : held key = vals) :
    stacksResults compare (List.replicate vals.length (.remove key)) held = vals.map .val := by
  induction vals generalizing held with
  | nil => rfl
  | cons val vals ih =>
      have hnext : onClass compare key List.tail held key = vals := by
        rw [onClass, if_pos hrefl, hheld]
        rfl
      rw [List.length_cons, List.replicate_succ, stacksResults, List.map_cons]
      apply congrArg₂ List.cons
      · change HashResult.val ((held key).head?.getD 0) = _
        rw [hheld]
        rfl
      · exact ih hnext

section Laws

variable (hsame : Equivalence fun a b => compare a b = 0) (hhash : ∀ a b, compare a b = 0 → hash a = hash b)

include hsame hhash

theorem kept_resize {size : Nat} {addrs : List (Nat × Nat)} (hpos : 0 < st.map.size)
    (hk : Kept st.map.size hash compare st held) (hop : st.ResizePermits (.resize size addrs))
    (hmax : st.map.size ≤ INT_MAX) (hbytes : size * SIZEOF_POINTER < 2 ^ 64) : ∃ st',
    st.resizeStep (.resize size addrs) = some (.done, st') ∧ st'.map.size = size ∧
      Kept size hash compare st' fun k => (held k).reverse := by
  obtain ⟨hsize, hcount, hfresh⟩ := hop
  obtain ⟨hmap, chains, hc, rfl⟩ := hk
  have hlaw : st.map.Lawful := by
    rw [hmap]
    exact ⟨hsame, hhash⟩
  obtain ⟨h', bs, chains', hr, hc', hstacks⟩ := hc.resize hlaw hpos hmax hsize hbytes hfresh hcount
  have hfields : st.map.compare = compare ∧ st.map.hash = hash := by
    rw [hmap]
    exact ⟨rfl, rfl⟩
  rw [hfields.1, hfields.2] at hr hc' hstacks
  refine ⟨⟨h', ⟨bs, size, compare, hash⟩⟩, ?_, rfl, rfl, chains', hc', hstacks⟩
  rw [resizeStep, hr]
  rfl

-- What a resize that ends has done.
theorem resize_kept {size : Nat} {addrs : List (Nat × Nat)} {st' : HashRun κ} {result : HashResult}
    (hpos : 0 < st.map.size) (hk : Kept st.map.size hash compare st held)
    (hop : st.ResizePermits (.resize size addrs))
    (hstep : st.resizeStep (.resize size addrs) = some (result, st')) :
    (st.map.size ≤ INT_MAX ∧ size * SIZEOF_POINTER < 2 ^ 64) ∧ 0 < st'.map.size ∧
      Kept st'.map.size hash compare st' fun k => (held k).reverse := by
  have hgood : st.map.size ≤ INT_MAX ∧ size * SIZEOF_POINTER < 2 ^ 64 := by
    by_contra hbad
    rw [resize_stuck hk hbad] at hstep
    cases hstep
  obtain ⟨st₁, hst₁, hsize, hk₁⟩ := kept_resize hsame hhash hpos hk hop hgood.1 hgood.2
  obtain ⟨-, rfl⟩ := Prod.mk.inj (Option.some.inj (hst₁.symm.trans hstep))
  rw [hsize]
  exact ⟨hgood, hop.1, hk₁⟩

theorem Resized.kept (hr : Resized hash compare st held) :
    0 < st.map.size ∧ Kept st.map.size hash compare st held := by
  induction hr with
  | created h size hpos => exact ⟨hpos, kept_created h⟩
  | @step st st' held result op _ hop hstep ih =>
      rcases ih with ⟨hpos, hk⟩
      cases op with
      | call op =>
          obtain ⟨st₁, hst₁, hk₁⟩ := step_kept hpos hsame hhash hk hop
          obtain ⟨-, rfl⟩ := Prod.mk.inj (Option.some.inj (hst₁.symm.trans hstep))
          have hsize : st₁.map.size = st.map.size := by rw [hk₁.map_eq]
          rw [hsize]
          exact ⟨hpos, hk₁⟩
      | resize size addrs =>
          exact (resize_kept hsame hhash hpos hk hop hstep).2

-- The state after a call, which has what the stacks have.
theorem call_kept (hpos : 0 < st.map.size) (hk : Kept st.map.size hash compare st held)
    {op : HashOp κ} (hop : st.Permits op) : ∃ st',
    st.step op = some ((stacksStep compare held op).1, st') ∧ 0 < st'.map.size ∧
      Kept st'.map.size hash compare st' (stacksStep compare held op).2 := by
  obtain ⟨st', hstep, hk'⟩ := step_kept hpos hsame hhash hk hop
  have hsize : st'.map.size = st.map.size := by rw [hk'.map_eq]
  exact ⟨st', hstep, hsize ▸ hpos, hsize ▸ hk'⟩

-- The results of calls are those on the stacks.
theorem answers_stacks (hpos : 0 < st.map.size) (hk : Kept st.map.size hash compare st held)
    (calls : List (HashCall κ)) : Answers st calls (stacksResults compare calls held) := by
  induction calls generalizing st held with
  | nil => rfl
  | cons call calls ih =>
      intro entry elem hop
      obtain ⟨st₁, hst₁, hpos₁, hk₁⟩ := call_kept hsame hhash hpos hk hop
      refine ⟨_, _, st₁, rfl, ?_, ?_⟩
      · rw [hst₁, stacksStep_op]
      · rw [← stacksStep_op held call entry elem]
        exact ih hpos₁ hk₁

-- Removals need no address, so they have no other results.
theorem answers_removes {results : List HashResult} (hpos : 0 < st.map.size)
    (hk : Kept st.map.size hash compare st held) {key : κ} {count : Nat}
    (h : Answers st (List.replicate count (.remove key)) results) :
    results = stacksResults compare (List.replicate count (.remove key)) held := by
  induction count generalizing st held results with
  | zero => exact h
  | succ count ih =>
      have hop : st.Permits (.remove key) := trivial
      obtain ⟨result, results', st', rfl, hstep, hrest⟩ := h 0 0 hop
      obtain ⟨st₁, hst₁, hpos₁, hk₁⟩ := call_kept hsame hhash hpos hk hop
      obtain ⟨rfl, rfl⟩ := Prod.mk.inj (Option.some.inj (hst₁.symm.trans hstep))
      rw [ih hpos₁ hk₁ hrest]
      rfl

-- A resize ends, and all calls after it return what they return without it, if and only if the tables
-- are of these sizes and the stack of every key is the same from both ends: hmap_resize turns them
-- around.
theorem hmap_resize_unseen (hr : Resized hash compare st held) {size : Nat} {addrs : List (Nat × Nat)}
    (hop : st.ResizePermits (.resize size addrs)) :
    (∃ st', st.resizeStep (.resize size addrs) = some (.done, st') ∧
      ∀ calls, ∃ results, Answers st calls results ∧ Answers st' calls results) ↔
      st.map.size ≤ INT_MAX ∧ size * SIZEOF_POINTER < 2 ^ 64 ∧ ∀ key, (held key).reverse = held key := by
  obtain ⟨hpos, hk⟩ := hr.kept hsame hhash
  constructor
  · rintro ⟨st', hstep, hunseen⟩
    obtain ⟨⟨hmax, hbytes⟩, hpos', hk'⟩ := resize_kept hsame hhash hpos hk hop hstep
    refine ⟨hmax, hbytes, fun key => ?_⟩
    -- the removals of all values of the key
    obtain ⟨results, hbefore, hafter⟩ := hunseen (List.replicate (held key).length (.remove key))
    have heq := (answers_removes hsame hhash hpos hk hbefore).symm.trans
      (answers_removes hsame hhash hpos' hk' hafter)
    have hreverse : stacksResults compare (List.replicate (held key).reverse.length (.remove key))
        (fun k => (held k).reverse) = (held key).reverse.map .val :=
      stacksResults_removes (hsame.refl key) _ rfl
    rw [List.length_reverse] at hreverse
    rw [stacksResults_removes (hsame.refl key) (held key) rfl, hreverse] at heq
    exact (List.map_injective_iff.mpr (fun _ _ => HashResult.val.inj) heq).symm
  · rintro ⟨hmax, hbytes, hboth⟩
    obtain ⟨st', hstep, -⟩ := kept_resize hsame hhash hpos hk hop hmax hbytes
    obtain ⟨-, hpos', hk'⟩ := resize_kept hsame hhash hpos hk hop hstep
    rw [funext hboth] at hk'
    exact ⟨st', hstep, fun calls => ⟨stacksResults compare calls held,
      answers_stacks hsame hhash hpos hk calls, answers_stacks hsame hhash hpos' hk' calls⟩⟩

end Laws

-- Keys that are only set have one value each.
theorem hmap_resize_unseen_set : ∃ (st st' : HashRun Bool) (held : Bool → List Nat),
    Resized (fun _ => 7) (fun a b => if a = b then 0 else 1) st held ∧
    held true = [30] ∧ held false = [20] ∧
    st.resizeStep (.resize 5 [(300, 400), (301, 401)]) = some (.done, st') ∧
    ∀ calls, ∃ results, Answers st calls results ∧ Answers st' calls results := by
  have h : (run (fun a b => if a = b then 0 else 1) [.set true 10 100 200, .set false 20 101 201,
      .set true 30 102 202] ⟨⟨fun _ => none, fun _ => none⟩,
        hmapEmpty 3 (fun _ => 7) (fun a b => if a = b then 0 else 1)⟩ fun _ => []).map
          (fun r => (r.1.map.size, r.2 true, r.2 false,
            decide (r.1.ResizePermits (.resize 5 [(300, 400), (301, 401)])))) =
              some (3, [30], [20], true) := by decide +kernel
  obtain ⟨⟨st, held⟩, hrun, hheld⟩ := Option.map_eq_some_iff.mp h
  simp only [Prod.mk.injEq, decide_eq_true_eq] at hheld
  obtain ⟨hsize, htrue, hfalse, hop⟩ := hheld
  have hr := ((Reached.created ⟨fun _ => none, fun _ => none⟩).run hrun).resized (by decide)
  have hsame : Equivalence fun a b : Bool => (if a = b then (0 : Int) else 1) = 0 :=
    ⟨by decide, by decide, by decide⟩
  have hboth : ∀ key, (held key).reverse = held key := by
    intro key
    cases key with
    | false => rw [hfalse]; rfl
    | true => rw [htrue]; rfl
  have hmax : st.map.size ≤ INT_MAX := by
    rw [hsize]
    decide
  obtain ⟨st', hstep, hunseen⟩ :=
    (hmap_resize_unseen hsame (fun _ _ _ => rfl) hr hop).mpr ⟨hmax, by decide, hboth⟩
  exact ⟨st, st', held, hr, htrue, hfalse, hstep, hunseen⟩

-- Two values inserted under one key change places.
theorem hmap_resize_reversed : ∃ (st st' : HashRun Nat) (held : Nat → List Nat),
    Resized (fun _ => 7) (fun (a b : Nat) => (a : Int) - b) st held ∧
    st.ResizePermits (.resize 5 [(300, 400), (301, 401)]) ∧
    st.resizeStep (.resize 5 [(300, 400), (301, 401)]) = some (.done, st') ∧
    Answers st [.get 1] [.val 30] ∧ Answers st' [.get 1] [.val 10] := by
  have h : ((run (fun (a b : Nat) => (a : Int) - b) [.insert 1 10 100 200, .insert 1 30 101 201]
      ⟨⟨fun _ => none, fun _ => none⟩, hmapEmpty 3 (fun _ => 7) (fun (a b : Nat) => (a : Int) - b)⟩
        fun _ => []).bind fun r => (r.1.resizeStep (.resize 5 [(300, 400), (301, 401)])).map fun r' =>
          (r'.1, decide (r.1.ResizePermits (.resize 5 [(300, 400), (301, 401)])),
            hmapGet r.1.heap r.1.map 1, hmapGet r'.2.heap r'.2.map 1)) =
              some (.done, true, some 30, some 10) := by decide +kernel
  simp only [Option.bind_eq_some_iff, Option.map_eq_some_iff, Prod.mk.injEq, decide_eq_true_eq] at h
  obtain ⟨⟨st, held⟩, hrun, ⟨result, st'⟩, hresize, rfl, hop, hbefore, hafter⟩ := h
  have hr := ((Reached.created ⟨fun _ => none, fun _ => none⟩).run hrun).resized (by decide)
  refine ⟨st, st', held, hr, hop, hresize, ?_, ?_⟩
  · intro entry elem _
    exact ⟨_, [], st, rfl, by rw [HashCall.op, step, hbefore]; rfl, rfl⟩
  · intro entry elem _
    exact ⟨_, [], st', rfl, by rw [HashCall.op, step, hafter]; rfl, rfl⟩

end HashRun

end Adventure
