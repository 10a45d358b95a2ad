import Mvtx.Lib.Tiling
import Mvtx.Lock.NodeFind

/-!
# Walking a tree backwards

`tryBackwardLock`, `freeze` and `unlock` all walk the intervals of a key from a
timestamp down to the origin: they pop an interval and call `find` from it for
the timestamp before its start.  Here is that walk by itself, for a tree of any
shape whose intervals tile the timestamps.
-/

namespace Mvtx.Lock

open Lib Lib.AvlTree Lib.LinkedTree

/-- A stack that stands for nothing is empty. -/
theorem Pending.eq_nil {links : LinkMap} {stack : List Address}
    (pending : Pending links stack []) : stack = [] := by
  generalize whole : ([] : List Address) = sequence at pending
  cases pending with
  | nil => rfl
  | cons => simp at whole

namespace AVLTreeLockNode

/--
Pop intervals until the stack is empty, and call `find` for the timestamp
before the start of each.  Listed are the nodes that have been popped, each with
the stack after its turn.
-/
def descend : Nat → NodeHeap → List Address → Exec (List (Address × List Address))
  | 0, _, _ => .error .divergence
  | _ + 1, _, [] => .ok []
  | fuel + 1, heap, current :: locks => do
      let locks ←
        if 0 < (heap.pub current).startTs then
          find heap.fuel heap locks current ((heap.pub current).startTs - 1)
        else .ok locks
      let rest ← descend fuel heap locks
      return (current, locks) :: rest

variable {heap : NodeHeap} {links : LinkMap} {fuel limit : Nat} {stack remaining : List Address}

/-- A search only follows the links to the children. -/
theorem find_congr (same : ∀ address, (links address).left = (heap.links address).left ∧
      (links address).right = (heap.links address).right) (this : Address) (ts : Nat) :
    find fuel { heap with links := links } stack this ts = find fuel heap stack this ts := by
  induction fuel generalizing this stack with
  | zero => rfl
  | succ fuel ih =>
      simp only [find, (same this).1, (same this).2]
      split
      · cases (heap.links this).left with
        | none => rfl
        | some left => exact ih left
      · split
        · cases (heap.links this).right with
          | none => rfl
          | some right => exact ih right
        · rfl

theorem descend_congr (same : ∀ address, (links address).left = (heap.links address).left ∧
      (links address).right = (heap.links address).right) :
    descend fuel { heap with links := links } stack = descend fuel heap stack := by
  induction fuel generalizing stack with
  | zero => rfl
  | succ fuel ih =>
      cases stack with
      | nil => rfl
      | cons current stack =>
          have found : find ({ heap with links := links } : NodeHeap).fuel
              { heap with links := links } stack current ((heap.pub current).startTs - 1) =
            find heap.fuel heap stack current ((heap.pub current).startTs - 1) :=
            find_congr same current _
          simp only [descend, found, ih]

/-- The walk from a stack that stands for the first nodes of a tiling. -/
theorem descend_pending (heap : NodeHeap) (fuel : Nat) (nodes : List Address)
    (tiling : Tiles (fun node => (heap.pub node).startTs) (fun node => (heap.pub node).endTs)
      0 limit (remaining ++ nodes))
    (pending : Pending heap.links stack remaining) (enough : remaining.length < fuel)
    (short : remaining.length < heap.fuel) :
    ∃ visits, descend fuel heap stack = .ok visits ∧
      visits.map (·.1) = remaining.reverse ∧
      ∀ visit ∈ visits, visit.2 = [] ↔ (heap.pub visit.1).startTs = 0 := by
  induction remaining using List.reverseRecOn generalizing stack nodes fuel with
  | nil =>
      obtain ⟨fuel, rfl⟩ := Nat.exists_eq_succ_of_ne_zero (Nat.ne_of_gt enough)
      obtain rfl := pending.eq_nil
      exact ⟨[], rfl, rfl, by simp⟩
  | append_singleton earlier this ih =>
      obtain ⟨fuel, rfl⟩ :=
        Nat.exists_eq_succ_of_ne_zero (Nat.ne_of_gt (Nat.zero_lt_of_lt enough))
      obtain ⟨parent, left, right, rest, first, rfl, sound, pendingRest, split⟩ :=
        pending.exists_top
      simp only [List.length_append, List.length_singleton] at enough short
      have tiling' : Tiles (fun node => (heap.pub node).startTs)
          (fun node => (heap.pub node).endTs) 0 limit (earlier ++ this :: nodes) := by
        simpa using tiling
      obtain ⟨lowPart, -, -⟩ := tiling'.around
      rcases List.eq_nil_or_concat earlier with rfl | ⟨before, hit, rfl⟩
      · -- The node starts at the origin, and nothing is left.
        have origin : (heap.pub this).startTs = 0 := lowPart.symm
        obtain ⟨rfl, -⟩ := List.append_eq_nil_iff.1 split.symm
        obtain rfl := pendingRest.eq_nil
        obtain ⟨fuel, rfl⟩ := Nat.exists_eq_succ_of_ne_zero (show fuel ≠ 0 by omega)
        refine ⟨[(this, [])], ?_, rfl, by simp [origin]⟩
        simp [descend, origin, bind, Except.bind, pure, Except.pure]
      · -- The next node down is on top after the search.
        rw [List.concat_eq_append] at *
        simp only [List.length_append, List.length_singleton] at enough short
        obtain ⟨middle, -, -, ordered, meets⟩ := Tiles.append_iff.1 lowPart
        have meets' : (heap.pub hit).endTs + 1 = (heap.pub this).startTs := meets
        have covers : (heap.pub hit).Covers ((heap.pub this).startTs - 1) := by
          constructor
          · show (heap.pub hit).startTs ≤ _
            have ordered' : (heap.pub hit).startTs ≤ (heap.pub hit).endTs := ordered
            omega
          · omega
        have tiling'' : Tiles (fun node => (heap.pub node).startTs)
            (fun node => (heap.pub node).endTs) 0 limit
            (before ++ hit :: ([this] ++ nodes)) := by
          simpa using tiling
        have enough' : (before ++ [hit]).length < fuel := by
          simpa using (by omega : before.length + 1 < fuel)
        have short' : (before ++ [hit]).length < heap.fuel := by
          simpa using (by omega : before.length + 1 < heap.fuel)
        obtain ⟨locks, later, found, pending', isPrefix, -⟩ :=
          find_next pending (show (heap.pub this).startTs - 1 < _ by omega) rfl
            (tiling''.around_point covers).1 covers (by simp) short'
        obtain rfl := List.prefix_nil.1 isPrefix
        obtain ⟨visits, walked, order, empties⟩ :=
          ih fuel ([this] ++ nodes) (by simpa using tiling) pending' enough' short'
        have positive : 0 < (heap.pub this).startTs := by omega
        refine ⟨(this, locks) :: visits, ?_, by simp [order], ?_⟩
        · simp [descend, positive, found, walked, bind, Except.bind, pure, Except.pure]
        · refine List.forall_mem_cons.2 ⟨?_, empties⟩
          constructor
          · rintro rfl
            obtain ⟨_, _, _, _, _, nonempty, -⟩ := pending'.exists_top
            exact absurd nonempty (by simp)
          · intro origin
            exact absurd origin positive.ne'

/--
In a tree of any shape whose intervals tile all timestamps, `find` from the root
leaves the interval of a timestamp on top of the stack.  The walk from there pops
exactly the intervals that do not start after the timestamp, each once and in
descending order, and the stack is empty once the interval that starts at `0` has
been popped, and not before.
-/
theorem descend_of_tiles {tree : BinaryTree Address} {rootPtr ts : Nat}
    (children : Children heap.links tree) (isRoot : root tree = some rootPtr)
    (allocated : ∀ address ∈ inorder tree, address < heap.size)
    (tiling : Tiles (fun node => (heap.pub node).startTs) (fun node => (heap.pub node).endTs)
      0 (uintMax + 1) (inorder tree)) (small : ts ≤ uintMax) :
    ∃ top locks visits,
      find heap.fuel heap [] rootPtr ts = .ok (top :: locks) ∧ (heap.pub top).Covers ts ∧
        descend heap.fuel heap (top :: locks) = .ok visits ∧
        visits.map (·.1) =
          ((inorder tree).filter fun node => (heap.pub node).startTs ≤ ts).reverse ∧
        (visits.map (·.1)).Pairwise (fun node next =>
          (heap.pub next).startTs < (heap.pub node).startTs) ∧
        ∀ visit ∈ visits, visit.2 = [] ↔ (heap.pub visit.1).startTs = 0 := by
  have sorted := tiling.pairwise_lower
  have nodup : (inorder tree).Nodup := sorted.imp fun below same => by simp [same] at below
  have short := length_le_of_nodup_of_lt nodup allocated
  obtain ⟨earlier, hit, later, split, covers⟩ :=
    tiling.exists_cover ts (Nat.zero_le _) (by omega)
  rw [split] at tiling sorted short
  obtain ⟨before, after⟩ := tiling.around_point covers
  obtain ⟨links, sound, same, -⟩ := children.exists_sound nodup none
  have enough : tree.height ≤ heap.fuel := by
    have bound := height_le_length_inorder tree
    rw [split] at bound
    unfold NodeHeap.fuel
    omega
  simp only [List.length_append, List.length_cons] at short
  obtain ⟨stack, found, pending⟩ :=
    find_eq isRoot (show Sound ({ heap with links := links } : NodeHeap).links none tree from sound)
      .nil split before covers after enough
  rw [find_congr same] at found
  obtain ⟨_, _, _, locks, _, rfl, -⟩ := pending.exists_top
  obtain ⟨visits, walked, order, empties⟩ :=
    descend_pending { heap with links := links } heap.fuel later (by simpa using tiling) pending
      (by simpa [NodeHeap.fuel] using (by omega : earlier.length + 1 < heap.size + 1))
      (by simpa [NodeHeap.fuel] using (by omega : earlier.length + 1 < heap.size + 1))
  rw [descend_congr same] at walked
  have kept : (inorder tree).filter (fun node => (heap.pub node).startTs ≤ ts) =
      earlier ++ [hit] := by
    rw [split, List.filter_append, List.filter_cons_of_pos (by simpa using covers.1),
      List.filter_eq_self.2 fun node member => by simpa using (before node member).1,
      List.filter_eq_nil_iff.2 fun node member => by simpa using after node member]
  refine ⟨hit, locks, visits, found, covers, walked, by rw [order, kept, List.nil_append], ?_,
    empties⟩
  rw [order, List.nil_append, List.pairwise_reverse]
  have whole : (earlier ++ [hit] ++ later).Pairwise fun node next =>
      (heap.pub node).startTs < (heap.pub next).startTs := by
    simpa using sorted
  exact (List.pairwise_append.1 whole).1

/-- Three nodes, each the right child of the one before it. -/
def chain : NodeHeap where
  pub := fun address =>
    { status := .free
      startTs := [0, 5, 10].getD address 0
      endTs := [4, 9, uintMax].getD address 0
      tids := ∅ }
  links := fun address =>
    { leftHeight := 0
      rightHeight := 0
      parent := none
      left := none
      right := if address < 2 then some (address + 1) else none }
  size := 3
  errors := []

/-- From the timestamp `7`, two of the three intervals are popped. -/
theorem descend_of_tiles_of_chain :
    ∃ top locks visits,
      find chain.fuel chain [] 0 7 = .ok (top :: locks) ∧ (chain.pub top).Covers 7 ∧
        descend chain.fuel chain (top :: locks) = .ok visits ∧
        visits.map (·.1) = [1, 0] := by
  obtain ⟨top, locks, visits, found, covers, walked, order, -⟩ :=
    @descend_of_tiles chain (.node 0 .nil (.node 1 .nil (.node 2 .nil .nil))) 0 7
      ⟨rfl, rfl, trivial, rfl, rfl, trivial, rfl, rfl, trivial, trivial⟩ rfl (by decide)
      ⟨rfl, by decide, rfl, by decide, rfl, by decide, rfl⟩ (by decide)
  exact ⟨top, locks, visits, found, covers, walked, order⟩

end AVLTreeLockNode

end Mvtx.Lock
