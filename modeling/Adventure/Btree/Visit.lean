import Adventure.Btree.Tree

namespace Adventure

open Memory SearchTree

section Find

variable {s : Store} {h : ℕ} {t : PageTree h} {root : Nat}

theorem btreeFindFrom_eq (ht : Holds s.file.data root t) (hroot : IsRootFlag root)
    (hne : ∀ p ∈ t.addrs, p ≠ 0) (key : Nat) {depth : Nat} (hdepth : h < depth) :
    btreeFindFrom depth s t.addr key = some ⟨(t.leafOf key).addr,
      8 + 16 * (t.leafOf key).held.findIdx (fun item => decide (key ≤ item.1))⟩ := by
  obtain ⟨depth, rfl⟩ : ∃ n, depth = n + 1 := ⟨depth - 1, by omega⟩
  induction h generalizing root depth with
  | zero =>
      have hl : LeafAt s.file.data t.addr (BTREE_LEAF ||| root) 64 t.held := ht
      rw [btreeFindFrom, if_neg (hne _ t.addr_mem_addrs), isBranch, isLeaf_of_leafAt hl hroot,
        hl.find_eq key]
      rfl
  | succ h ih =>
      obtain ⟨depth, rfl⟩ : ∃ n, depth = n + 1 := ⟨depth - 1, by omega⟩
      have hb : BranchAt s.file.data t.addr root 64 (t.row.map Tree.addr) := ht.1
      have hpick := Row.pick_mem key t.row
      have hread := hb.read_pick key
      rw [Row.pick_map] at hread
      rw [btreeFindFrom, if_neg (hne _ t.addr_mem_addrs), isBranch, isLeaf_of_branchAt hb hroot,
        hb.find_eq key]
      simp only [Bool.not_false, if_true, Option.bind_eq_bind, Option.bind_some, hread]
      exact ih (ht.2 _ hpick) (Or.inl rfl)
        (fun p hp => hne p (Multiset.mem_of_le (Tree.addrs_kid_le hpick) hp)) depth (by omega)

end Find

-- The pages that btree_find goes through.
def searchPathFrom : Nat → Store → Nat → Nat → Option (List Nat)
  | 0, _, _, _ => none
  | depth + 1, s, page, key =>
      if isBranch (pgHeader s page) then do
        let index ← btreeBranchFind s page key
        let path ← searchPathFrom depth s (readUi64 s page index) key
        return page :: path
      else some [page]

def searchPath (s : Store) (root key : Nat) : Option (List Nat) :=
  searchPathFrom s.file.size s root key

theorem searchPathFrom_eq {s : Store} {h : ℕ} {t : PageTree h} {root : Nat}
    (ht : Holds s.file.data root t) (hroot : IsRootFlag root) (key : Nat) {depth : Nat}
    (hdepth : h < depth) : searchPathFrom depth s t.addr key = some (t.path key) := by
  obtain ⟨depth, rfl⟩ : ∃ n, depth = n + 1 := ⟨depth - 1, by omega⟩
  induction h generalizing root depth with
  | zero =>
      rw [searchPathFrom, isBranch, isLeaf_of_leafAt ht hroot]
      rfl
  | succ h ih =>
      obtain ⟨depth, rfl⟩ : ∃ n, depth = n + 1 := ⟨depth - 1, by omega⟩
      have hb : BranchAt s.file.data t.addr root 64 (t.row.map Tree.addr) := ht.1
      have hread := hb.read_pick key
      rw [Row.pick_map] at hread
      rw [searchPathFrom, isBranch, isLeaf_of_branchAt hb hroot, hb.find_eq key]
      simp only [Bool.not_false, if_true, Option.bind_eq_bind, Option.bind_some, hread,
        ih (ht.2 _ (Row.pick_mem key t.row)) (Or.inl rfl) depth (by omega)]
      rfl

-- The pages of a tree in the order in which btree_debug_recur prints them.
def visited : {h : ℕ} → PageTree h → List (Nat × List (Nat × Nat))
  | 0, t => [(t.addr, Tree.held t)]
  | _ + 1, t => (t.addr, []) :: (Tree.row t).kids.flatMap visited

theorem visited_items {h : ℕ} (t : PageTree h) : (visited t).flatMap Prod.snd = t.items := by
  induction h with
  | zero => simp [visited]
  | succ h ih =>
      rw [visited, List.flatMap_cons, List.nil_append, List.flatMap_assoc, Tree.items_row]
      exact List.flatMap_congr fun kid _ => ih kid

theorem visited_addrs {h : ℕ} (t : PageTree h) :
    ((visited t).map Prod.fst : Multiset Nat) = t.addrs := by
  induction h with
  | zero => rfl
  | succ h ih =>
      rw [visited, Tree.addrs_row, List.map_cons, ← Multiset.cons_coe, List.map_flatMap]
      congr 1
      induction (Tree.row t).kids with
      | nil => rfl
      | cons kid kids ihk =>
          rw [List.flatMap_cons, ← Multiset.coe_add, ih kid, ihk, List.map_cons, List.sum_cons]

section Debug

variable {s : Store} {h : ℕ} {p flags size : Nat}

-- The loop over the children of a branch after the first one. `row` begins with the child that
-- was visited last.
theorem btreeDebugItems_eq {visit : Nat → Option (List (Nat × List (Nat × Nat)))}
    {whole : Row Nat Nat} (hb : BranchAt s.file.data p flags size whole) (row : Row (PageTree h) Nat)
    (before : List Nat) (hf : whole.flat = before ++ (row.map Tree.addr).flat)
    (hvisit : ∀ kid ∈ row.kids, visit kid.addr = some (visited kid)) (steps : Nat)
    (hsteps : row.seps.length < steps) :
    btreeDebugItems visit s p (pgHeader s p) steps (8 + 8 * before.length + 8) =
      some (row.kids.tail.flatMap visited) := by
  have hsize := hb.page.size_lt
  have hlen := hb.length_le
  have hcount := congrArg List.length hf
  rw [List.length_append, Row.length_flat, Row.length_flat, Row.seps_map] at hcount
  obtain ⟨steps, rfl⟩ : ∃ n, steps = n + 1 := ⟨steps - 1, by omega⟩
  induction row generalizing before steps with
  | last child =>
      simp only [Row.seps, List.length_nil] at hcount
      rw [btreeDebugItems, hb.end_eq, if_neg (by omega)]
      rfl
  | cons child sep row ih =>
      simp only [Row.seps, List.length_cons] at hsteps hcount
      obtain ⟨steps, rfl⟩ : ∃ n, steps = n + 1 := ⟨steps - 1, by omega⟩
      simp only [Row.kids, List.forall_mem_cons] at hvisit
      obtain ⟨kid, kids, rest, hkids, hflat⟩ := row.exists_first Tree.addr
      have hread : readUi64 s p (8 + 8 * before.length + 8 + 8) = kid.addr :=
        hb.read_word (before ++ [child.addr, sep]) rest
          (by simp [hf, Row.map, Row.flat, hflat]) (by simp; omega)
      have hnext := toItem_next before child.addr sep (by omega)
      have hi := ih (before ++ [child.addr, sep]) (by simp [hf, Row.map, Row.flat])
        hvisit.2 (by simp; omega) steps (by omega)
      rw [btreeDebugItems, hb.end_eq, if_pos (by omega), hread, hvisit.2 kid (by simp [hkids]), hnext,
        hi]
      simp [Row.kids, hkids]

theorem btreeDebugFrom_eq {t : PageTree h} {root : Nat} (ht : Holds s.file.data root t)
    (hroot : IsRootFlag root) {depth : Nat} (hdepth : h < depth) :
    btreeDebugFrom depth s t.addr = some (visited t) := by
  obtain ⟨depth, rfl⟩ : ∃ n, depth = n + 1 := ⟨depth - 1, by omega⟩
  induction h generalizing root depth with
  | zero =>
      have hl : LeafAt s.file.data t.addr (BTREE_LEAF ||| root) 64 t.held := ht
      simp only [btreeDebugFrom, isBranch, isLeaf_of_leafAt hl hroot, hl.walk_eq]
      rfl
  | succ h ih =>
      obtain ⟨depth, rfl⟩ : ∃ n, depth = n + 1 := ⟨depth - 1, by omega⟩
      have hb : BranchAt s.file.data t.addr root 64 (t.row.map Tree.addr) := ht.1
      have hkids : ∀ kid ∈ t.row.kids, btreeDebugFrom (depth + 1) s kid.addr = some (visited kid) :=
        fun kid hkid => ih (ht.2 kid hkid) (Or.inl rfl) depth (by omega)
      have hlen := hb.length_le
      have hsize := hb.page.size_lt
      rw [Row.seps_map] at hlen
      have hloop := btreeDebugItems_eq hb t.row [] rfl hkids ITEM_STEPS
        (by rw [ITEM_STEPS]; omega)
      obtain ⟨kid, kids, rest, hk, hflat⟩ := t.row.exists_first Tree.addr
      have hread : readUi64 s t.addr btStart = kid.addr :=
        hb.read_word [] rest hflat rfl
      have hstart : toItem (btStart + 8) = 8 + 8 * ([] : List Nat).length + 8 := rfl
      unfold btreeDebugFrom
      simp only [isBranch, isLeaf_of_branchAt hb hroot, Bool.not_false, if_true, hread,
        hkids kid (by simp [hk]), hstart, hloop, Option.bind_eq_bind, Option.bind_some]
      rw [visited, show (Tree.row t).kids = kid :: kids from hk]
      rfl

end Debug

end Adventure
