import Adventure.Btree.Tree

namespace Adventure

open Memory SearchTree

-- A store whose free list has the pages in `freed` put before the others.
def Store.release (s : Store) (freed : List Nat) : Store :=
  { s with freeList := s.freeList.map (freed ++ ·) }

theorem storeFree_release (s : Store) (freed : List Nat) (p : Nat) :
    storeFree (s.release freed) p = s.release (p :: freed) := by
  simp [storeFree, Store.release, Function.comp_def]

theorem release_nil (s : Store) : s.release [] = s := by
  simp [Store.release]

theorem Pool.release {base : Base} {s : Store} {live : Multiset Nat} {freed : List Nat}
    (hp : Pool base s ((freed : Multiset Nat) + live)) : Pool base (s.release freed) live := by
  obtain ⟨free, count, hf, he, ha⟩ := hp.account
  refine ⟨⟨hp.sound.end_le, hp.sound.size_pos, hp.sound.size_lt⟩, freed ++ free, count, ?_, he, ?_⟩
  · simp [Store.release, hf]
  · rw [← ha, ← Multiset.coe_add]
    abel

section Destroy

variable {s : Store} {h : ℕ} {p flags size : Nat}

-- The loop of btree_destroy over the children of a branch after the first one.
theorem btreeDestroyItems_eq {destroy : Store → Nat → Option Store} {whole : Row Nat Nat}
    (hb : BranchAt s.file.data p flags size whole) (row : Row (PageTree h) Nat)
    (before : List Nat) (hf : whole.flat = before ++ (row.map Tree.addr).flat) (freed : List Nat)
    (hdestroy : ∀ kid ∈ row.kids, ∀ freed : List Nat, ∃ freed' : List Nat,
      (freed' : Multiset Nat) = kid.addrs ∧
        destroy (s.release freed) kid.addr = some (s.release (freed' ++ freed))) (steps : Nat)
    (hsteps : row.seps.length < steps) :
    ∃ freed' : List Nat, (freed' : Multiset Nat) = (row.kids.tail.map Tree.addrs).sum ∧
      btreeDestroyItems destroy p (pgHeader s p) steps (s.release freed) (8 + 8 * before.length + 8) =
        some (s.release (freed' ++ freed)) := by
  have hsize := hb.page.size_lt
  have hlen := hb.length_le
  have hcount := congrArg List.length hf
  rw [List.length_append, Row.length_flat, Row.length_flat, Row.seps_map] at hcount
  obtain ⟨steps, rfl⟩ : ∃ n, steps = n + 1 := ⟨steps - 1, by omega⟩
  induction row generalizing before steps freed with
  | last child =>
      simp only [Row.seps, List.length_nil] at hcount
      refine ⟨[], rfl, ?_⟩
      rw [btreeDestroyItems, hb.end_eq, if_neg (by omega)]
      rfl
  | cons child sep row ih =>
      simp only [Row.seps, List.length_cons] at hsteps hcount
      obtain ⟨steps, rfl⟩ : ∃ n, steps = n + 1 := ⟨steps - 1, by omega⟩
      simp only [Row.kids, List.forall_mem_cons] at hdestroy
      obtain ⟨kid, kids, rest, hkids, hflat⟩ := row.exists_first Tree.addr
      have hread : readUi64 (s.release freed) p (8 + 8 * before.length + 8 + 8) = kid.addr :=
        hb.read_word (before ++ [child.addr, sep]) rest
          (by simp [hf, Row.map, Row.flat, hflat]) (by simp; omega)
      have hnext := toItem_next before child.addr sep (by omega)
      obtain ⟨freed₁, hf₁, hd₁⟩ := hdestroy.2 kid (by simp [hkids]) freed
      obtain ⟨freed₂, hf₂, hd₂⟩ := ih (before ++ [child.addr, sep])
        (by simp [hf, Row.map, Row.flat]) (freed₁ ++ freed) hdestroy.2 (by simp; omega) steps
        (by omega)
      refine ⟨freed₂ ++ freed₁, ?_, ?_⟩
      · rw [← Multiset.coe_add, hf₁, hf₂]
        simp only [Row.kids, hkids, List.tail_cons, List.map_cons, List.sum_cons]
        abel
      · rw [btreeDestroyItems, hb.end_eq, if_pos (by omega), hread, hd₁]
        simp only [Option.bind_eq_bind, Option.bind_some]
        rw [hnext, hd₂, List.append_assoc]

-- btree_destroy puts every page of the tree on the free list once, and does nothing else.
theorem btreeDestroyFrom_eq {t : PageTree h} {root : Nat} (ht : Holds s.file.data root t)
    (hroot : IsRootFlag root) {depth : Nat} (hdepth : h < depth) (freed : List Nat) :
    ∃ freed' : List Nat, (freed' : Multiset Nat) = t.addrs ∧
      btreeDestroyFrom depth (s.release freed) t.addr = some (s.release (freed' ++ freed)) := by
  obtain ⟨depth, rfl⟩ : ∃ n, depth = n + 1 := ⟨depth - 1, by omega⟩
  induction h generalizing root depth freed with
  | zero =>
      have hl : LeafAt (s.release freed).file.data t.addr (BTREE_LEAF ||| root) 64 t.held := ht
      refine ⟨[t.addr], rfl, ?_⟩
      simp only [btreeDestroyFrom, isLeaf_of_leafAt hl hroot, if_true, storeFree_release]
      rfl
  | succ h ih =>
      obtain ⟨depth, rfl⟩ : ∃ n, depth = n + 1 := ⟨depth - 1, by omega⟩
      have hb : BranchAt s.file.data t.addr root 64 (t.row.map Tree.addr) := ht.1
      have hb' : BranchAt (s.release freed).file.data t.addr root 64 (t.row.map Tree.addr) := hb
      have hkids : ∀ kid ∈ t.row.kids, ∀ freed : List Nat, ∃ freed' : List Nat,
          (freed' : Multiset Nat) = kid.addrs ∧
            btreeDestroyFrom (depth + 1) (s.release freed) kid.addr =
              some (s.release (freed' ++ freed)) :=
        fun kid hkid freed => ih (ht.2 kid hkid) (Or.inl rfl) freed depth (by omega)
      have hlen := hb.length_le
      rw [Row.seps_map] at hlen
      obtain ⟨kid, kids, rest, hk, hflat⟩ := t.row.exists_first Tree.addr
      have hread : readUi64 (s.release freed) t.addr btStart = kid.addr :=
        hb'.read_word [] rest hflat rfl
      obtain ⟨freed₁, hf₁, hd₁⟩ := hkids kid (by simp [hk]) freed
      obtain ⟨freed₂, hf₂, hd₂⟩ := btreeDestroyItems_eq hb t.row [] rfl
        (freed₁ ++ freed) hkids ITEM_STEPS (by rw [ITEM_STEPS]; omega)
      have hstart : toItem (btStart + 8) = 8 + 8 * ([] : List Nat).length + 8 := rfl
      have hhdr : pgHeader (s.release freed) t.addr = pgHeader s t.addr := rfl
      refine ⟨t.addr :: (freed₂ ++ freed₁), ?_, ?_⟩
      · rw [Tree.addrs_row, ← Multiset.cons_coe, ← Multiset.coe_add, hf₁, hf₂, hk]
        simp only [List.tail_cons, List.map_cons, List.sum_cons]
        rw [Multiset.add_comm]
      · unfold btreeDestroyFrom
        simp only [hhdr, isLeaf_of_branchAt hb hroot, Bool.false_eq_true, if_false, hread, hd₁, hstart,
          hd₂, Option.bind_eq_bind, Option.bind_some, storeFree_release]
        simp

end Destroy

end Adventure
