import Mathlib.Data.Nat.Log
import WsServer.FBPTree.Lifetimes

/-!
# What the trees of a program cost

Every node but the root is at least half full. So the nodes are few, and so are the levels: whatever
is done with the objects, all their nodes together number at most one for every object and one for
thirty keys, and a search goes down at most one level for each factor of 32 in the size
(`costs_of_reachable`).
-/

set_option autoImplicit false
set_option relaxedAutoImplicit false

namespace WsServer.FBPTree

open Foundations

variable {Key Value : Type}

/-! ### One tree -/

section Tree

variable {d : ℕ}

/-- The bound for a node, if each of its children has enough keys to make up for it. -/
theorem length_addrs_children {cs : List (Tree Key Value d)}
    (hcs : ∀ c ∈ cs, 961 * c.addrs.length + 31 ≤ 32 * c.entries.length) :
    961 * (cs.flatMap Tree.addrs).length + 31 * cs.length ≤
      32 * (cs.flatMap Tree.entries).length := by
  induction cs with
  | nil => simp
  | cons c cs ih =>
    obtain ⟨hc, hcs⟩ := List.forall_mem_cons.mp hcs
    have hrest := ih hcs
    simp only [List.flatMap_cons, List.length_append, List.length_cons]
    omega

/-- Each node below the root has 961/32 keys to itself. -/
theorem length_addrs_below {t : Tree Key Value d} (hwf : WellFormed (kMinDegree - 1) t) :
    961 * t.addrs.length + 31 ≤ 32 * t.entries.length := by
  induction d with
  | zero =>
    obtain ⟨a, l, rfl⟩ := t.eq_leaf
    have hleast : 31 ≤ l.length := ((wellFormed_leaf a l).mp hwf).1
    simp only [Tree.addrs_leaf, Tree.entries_leaf, List.length_singleton]
    omega
  | succ d ih =>
    obtain ⟨a, ks, cs, rfl⟩ := t.eq_inner
    have hform := (wellFormed_inner _ _ _).mp hwf
    have hleast : 31 ≤ ks.length := hform.least_le
    have harity := hform.arity
    have hchildren := length_addrs_children fun c hc ↦ ih (hform.children_formed c hc)
    simp only [Tree.addrs_inner, Tree.entries_inner, List.length_cons]
    omega

theorem length_addrs_le {t : Tree Key Value d} (hwf : WellFormed 1 t) :
    961 * t.addrs.length ≤ 32 * t.entries.length + 961 := by
  cases d with
  | zero =>
    obtain ⟨a, l, rfl⟩ := t.eq_leaf
    simp
  | succ d =>
    obtain ⟨a, ks, cs, rfl⟩ := t.eq_inner
    have hform := (wellFormed_inner _ _ _).mp hwf
    have hchildren := length_addrs_children fun c hc ↦
      length_addrs_below (hform.children_formed c hc)
    simp only [Tree.addrs_inner, Tree.entries_inner, List.length_cons]
    omega

theorem height_le_log {t : Tree Key Value d} (hwf : WellFormed 1 t) :
    d ≤ Nat.log 32 (t.entries.length / 62) + 1 := by
  rcases Nat.eq_zero_or_pos d with rfl | hd
  · exact Nat.zero_le _
  · have hkeys : 2 * 32 ^ (d - 1) * 31 ≤ t.entries.length := occupancy_root hwf hd
    have hpow : 32 ^ (d - 1) ≤ t.entries.length / 62 := by
      rw [Nat.le_div_iff_mul_le (by decide)]
      omega
    have hlog := Nat.le_log_of_pow_le (by decide) hpow
    omega

end Tree

/-! ### Searching -/

/-- Steps to spare do not change where a search ends. -/
theorem findLeafFrom_mono [LinearOrder Key] {h : Memory Key Value} {key : Key} {fuel fuel' : ℕ}
    (hle : fuel ≤ fuel') {n leaf : ℕ} (hfind : findLeafFrom h key fuel n = some leaf) :
    findLeafFrom h key fuel' n = some leaf := by
  induction fuel generalizing fuel' n with
  | zero => simp [findLeafFrom] at hfind
  | succ fuel ih =>
    obtain ⟨fuel', rfl⟩ := Nat.exists_eq_add_one_of_ne_zero (by omega : fuel' ≠ 0)
    unfold findLeafFrom at hfind ⊢
    cases hread : h.read n with
    | none => simp [hread] at hfind
    | some node =>
      cases node with
      | leaf keys values next => simpa [hread] using hfind
      | inner keys children =>
        simp only [hread, Option.bind_eq_bind, Option.bind_some, Option.bind_eq_some_iff]
          at hfind ⊢
        obtain ⟨child, hchild, hfind⟩ := hfind
        exact ⟨child, hchild, ih (by omega) hfind⟩

/-! ### All objects -/

/-- 961 times the nodes that an object may have. -/
def FBPlusTree.allowance (t : FBPlusTree) : ℕ := if t.root.isSome then 32 * t.size + 961 else 0

section Pool

variable [LinearOrder Key] {w : Pool Key Value} {content : ℕ → Content Key Value}
  {hs : Histories Key Value}

theorem Owned.length_addrs_le (hw : Owned w.settled content hs) {i : ℕ} {obj : FBPlusTree}
    (hobj : w.trees[i]? = some obj) : 961 * (content i).addrs.length ≤ obj.allowance := by
  have hholds := hw.holds i _ (Pool.getElem?_settled_some hobj)
  match hcontent : content i with
  | none => simp [Content.addrs]
  | some ⟨d, t⟩ =>
    rw [hcontent] at hholds
    have hown : Owns w.heap obj.settled t := hholds
    have hroot : obj.root ≠ none := by
      rw [← obj.root_settled, hown.root_eq]
      simp
    have hsize : obj.size = t.entries.length := by
      rw [← hown.size_eq, FBPlusTree.settled_of_root_ne_none hroot]
    rw [FBPlusTree.allowance, if_pos (Option.isSome_iff_ne_none.mpr hroot), hsize]
    exact FBPTree.length_addrs_le hown.formed

/-- The nodes of all objects, and how many they are. -/
theorem Owned.exists_nodes (hw : Owned w.settled content hs) (hacc : Accounted w.heap content) :
    ∃ nodes : Finset ℕ, (∀ a, a ∈ nodes ↔ (w.heap.read a).isSome) ∧
      961 * nodes.card ≤ (w.trees.map FBPlusTree.allowance).sum := by
  refine ⟨Finset.univ.biUnion fun i : Fin w.trees.length ↦ (content i).addrs.toFinset,
    fun a ↦ ?_, ?_⟩
  · rw [Finset.mem_biUnion]
    constructor
    · rintro ⟨i, -, ha⟩
      exact (hacc a).mpr ⟨i, List.mem_toFinset.mp ha⟩
    · intro ha
      obtain ⟨i, hi⟩ := (hacc a).mp ha
      have hlt : i < w.trees.length := by
        by_contra hle
        rw [hw.outside i (w.length_settled ▸ not_lt.mp hle)] at hi
        simp [Content.addrs] at hi
      exact ⟨⟨i, hlt⟩, Finset.mem_univ _, List.mem_toFinset.mpr hi⟩
  · calc 961 * (Finset.univ.biUnion fun i : Fin w.trees.length ↦ (content i).addrs.toFinset).card
        ≤ 961 * ∑ i : Fin w.trees.length, (content i).addrs.length :=
          Nat.mul_le_mul_left _ (Finset.card_biUnion_le.trans
            (Finset.sum_le_sum fun i _ ↦ List.toFinset_card_le _))
      _ = ∑ i : Fin w.trees.length, 961 * (content i).addrs.length := Finset.mul_sum _ _ _
      _ ≤ ∑ i : Fin w.trees.length, w.trees[i].allowance :=
          Finset.sum_le_sum fun i _ ↦ hw.length_addrs_le (List.getElem?_eq_getElem i.isLt)
      _ = (w.trees.map FBPlusTree.allowance).sum := by
          rw [← List.sum_ofFn]
          congr 1
          exact List.ofFn_getElem_eq_map _ _

/-- Whatever is done with the objects of a program, a search in an object visits at most one node
for each factor of 32 in its size and two more; and all the nodes there are number at most
`32 * size / 961 + 1` for each object that has a root. -/
theorem costs_of_reachable (events : List (Event Key Value)) :
    ∃ w : Pool Key Value, events.foldlM Pool.perform Pool.initial = some w ∧
      (∀ (i : ℕ) (t : FBPlusTree) (root : ℕ), w.trees[i]? = some t → t.root = some root →
        ∀ key, ∃ leaf, findLeaf w.heap t key = some (some leaf) ∧
          findLeafFrom w.heap key (Nat.log 32 (t.size / 62) + 2) root = some leaf) ∧
      ∃ nodes : Finset ℕ, (∀ a, a ∈ nodes ↔ (w.heap.read a).isSome) ∧
        961 * nodes.card ≤ (w.trees.map FBPlusTree.allowance).sum := by
  obtain ⟨w, hrun, content, hs, hw, hacc⟩ :=
    foldlM_invariant (fun _ e hw ↦ AllOwned.perform hw e) events allOwned_initial
  refine ⟨w, hrun, fun i obj root hobj hroot key ↦ ?_, hw.exists_nodes hacc⟩
  have hholds := hw.holds i _ (Pool.getElem?_settled_some hobj)
  match hcontent : content i with
  | none =>
    rw [hcontent] at hholds
    rw [← obj.root_settled, hholds.1] at hroot
    nomatch hroot
  | some ⟨d, t⟩ =>
    rw [hcontent] at hholds
    have hown : Owns w.heap obj.settled t := hholds
    have hsize : obj.size = t.entries.length := by
      rw [← hown.size_eq, FBPlusTree.settled_of_root_ne_none (by simp [hroot])]
    have haddr : root = t.addr :=
      Option.some.inj (hroot.symm.trans (obj.root_settled ▸ hown.root_eq))
    have hheight := height_le_log hown.formed
    obtain ⟨leaf, -, -, hfind, -⟩ := findLeafFrom_eq hown.represents hown.formed hown.sorted key
      (Nat.lt_succ_self d)
    refine ⟨leaf, ?_, ?_⟩
    · have hall := findLeafFrom_mono (show d + 1 ≤ w.heap.bound from hown.height_lt) hfind
      simp [findLeaf, hroot, haddr, hall]
    · rw [haddr, hsize]
      exact findLeafFrom_mono (by omega) hfind

end Pool

end WsServer.FBPTree
