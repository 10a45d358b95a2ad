import Mvtx.Lock.NodeInsert

/-!
# The stack of a search

`find` leaves a stack from which the tree can be walked backwards: the walk
pops a node, and goes on with what `find` pushes from there.  `Pending` says
which part of the in-order sequence is still to come.
-/

namespace Mvtx.Lock

open Lib.AvlTree Lib.LinkedTree

/--
A stack stands for a part of the in-order sequence: each of its nodes comes
after its own left subtree, and that after what the rest of the stack stands for.
-/
inductive Pending (links : LinkMap) : List Address → List Address → Prop where
  | nil : Pending links [] []
  | cons
      {this : Address}
      {parent : Option Address}
      {left right : BinaryTree Address}
      {stack unvisited : List Address}
      (here : Sound links parent (.node this left right))
      (rest : Pending links stack unvisited) :
      Pending links (this :: stack) (unvisited ++ inorder left ++ [this])

/-- A stack that stands for a sequence has the last of it on top. -/
theorem Pending.exists_top
    {links : LinkMap} {stack unvisited : List Address} {this : Address}
    (pending : Pending links stack (unvisited ++ [this])) :
    ∃ parent left right rest earlier,
      stack = this :: rest ∧ Sound links parent (.node this left right) ∧
        Pending links rest earlier ∧ unvisited = earlier ++ inorder left := by
  generalize whole : unvisited ++ [this] = sequence at pending
  cases pending with
  | nil => simp at whole
  | @cons top parent left right rest earlier here pending =>
      obtain ⟨rfl, sameTop⟩ := List.append_inj' whole rfl
      obtain rfl : this = top := by simpa using sameTop
      exact ⟨parent, left, right, rest, earlier, rfl, here, pending, rfl⟩

/-- The nodes on a stack are among those it stands for. -/
theorem Pending.mem
    {links : LinkMap} {stack unvisited : List Address} {this : Address}
    (pending : Pending links stack unvisited) (member : this ∈ stack) :
    this ∈ unvisited := by
  induction pending with
  | nil => exact member
  | cons here rest ih =>
      rcases List.mem_cons.1 member with rfl | below
      · simp
      · simp [ih below]

/-- What lies on the left of a node that a stack stands for is not on the stack. -/
theorem Pending.left_passed
    {links : LinkMap} {stack unvisited : List Address} {upper : Address}
    (pending : Pending links stack unvisited) (nodup : unvisited.Nodup)
    (member : upper ∈ unvisited) :
    ∃ left, (links upper).left = root left ∧ Sound links (some upper) left ∧
      (inorder left).Sublist unvisited ∧ ∀ lower ∈ inorder left, lower ∉ stack := by
  induction pending with
  | nil => simp at member
  | @cons this parent left right stack unvisited here rest ih =>
      obtain ⟨earlier, -, fresh⟩ := List.nodup_append.1 nodup
      obtain ⟨nodupRest, -, apart⟩ := List.nodup_append.1 earlier
      have notTop : ∀ lower ∈ unvisited ++ inorder left, lower ≠ this := fun lower below =>
        fresh lower below this (by simp)
      -- A part of the left subtree is apart from the stack.
      have inLeft : ∀ part, (inorder part).Sublist (inorder left) →
          (inorder part).Sublist (unvisited ++ inorder left ++ [this]) ∧
            ∀ lower ∈ inorder part, lower ∉ this :: stack := fun part sublist =>
        ⟨(sublist.trans (List.sublist_append_right _ _)).trans (List.sublist_append_left _ _),
          fun lower below onStack => by
            have isLeft := sublist.subset below
            rcases List.mem_cons.1 onStack with rfl | inStack
            · exact notTop lower (by simp [isLeft]) rfl
            · exact apart lower (rest.mem inStack) lower isLeft rfl⟩
      rcases List.mem_append.1 member with below | isTop
      · rcases List.mem_append.1 below with inRest | isLeft
        · obtain ⟨part, link, stored, sublist, passed⟩ := ih nodupRest inRest
          refine ⟨part, link, stored,
            (sublist.trans (List.sublist_append_left _ _)).trans (List.sublist_append_left _ _),
            fun lower isPart onStack => ?_⟩
          rcases List.mem_cons.1 onStack with rfl | inStack
          · exact notTop lower (by simp [sublist.subset isPart]) rfl
          · exact passed lower isPart inStack
        · obtain ⟨part, before, after, link, stored, split⟩ := here.2.1.exists_left isLeft
          refine ⟨part, link, stored, inLeft part ?_⟩
          rw [split]
          exact (List.sublist_append_right _ _).trans (List.sublist_append_left _ _)
      · obtain rfl : upper = this := by simpa using isTop
        exact ⟨left, by rw [here.1], here.2.1, inLeft left (List.Sublist.refl _)⟩

/-- What a stack stands for and does not hold lies on the left of a node that it holds. -/
theorem Pending.exists_upper
    {links : LinkMap} {stack unvisited : List Address} {lower : Address}
    (pending : Pending links stack unvisited) (member : lower ∈ unvisited)
    (passed : lower ∉ stack) :
    ∃ upper ∈ stack, ∃ left, (links upper).left = root left ∧
      Sound links (some upper) left ∧ (inorder left).Sublist unvisited ∧
        lower ∈ inorder left := by
  induction pending with
  | nil => simp at member
  | @cons this parent left right stack unvisited here rest ih =>
      obtain ⟨notTop, notBelow⟩ := not_or.1 (mt List.mem_cons.2 passed)
      simp only [List.mem_append, List.mem_singleton, notTop, or_false] at member
      rcases member with inRest | isLeft
      · obtain ⟨upper, onStack, part, link, stored, sublist, found⟩ := ih inRest notBelow
        exact ⟨upper, List.mem_cons_of_mem _ onStack, part, link, stored,
          (sublist.trans (List.sublist_append_left _ _)).trans (List.sublist_append_left _ _),
          found⟩
      · exact ⟨this, List.mem_cons_self, left, by rw [here.1], here.2.1,
          (List.sublist_append_right _ _).trans (List.sublist_append_left _ _), isLeft⟩

/-- Where an element of a sequence lies which is split at another element. -/
theorem split_cases {α : Type*} {below above first second : List α}
    {pivot element : α}
    (split : below ++ pivot :: above = first ++ element :: second) :
    (∃ rest, below = first ++ element :: rest ∧ second = rest ++ pivot :: above) ∨
      (below = first ∧ pivot = element ∧ above = second) ∨
        ∃ rest, first = below ++ pivot :: rest ∧
          above = rest ++ element :: second := by
  rcases List.append_eq_append_iff.1 split with ⟨rest, rfl, tail⟩ | ⟨rest, rfl, tail⟩
  · cases rest with
    | nil =>
        simp only [List.nil_append, List.cons.injEq] at tail
        exact .inr (.inl ⟨by simp, tail⟩)
    | cons head rest =>
        simp only [List.cons_append, List.cons.injEq] at tail
        exact .inr (.inr ⟨rest, by simp [tail.1], tail.2⟩)
  · cases rest with
    | nil =>
        simp only [List.nil_append, List.cons.injEq] at tail
        exact .inr (.inl ⟨by simp, tail.1.symm, tail.2.symm⟩)
    | cons head rest =>
        simp only [List.cons_append, List.cons.injEq] at tail
        exact .inl ⟨rest, by simp [tail.1], tail.2⟩

namespace AVLTreeLockNode

variable {heap : NodeHeap} {this : Address} {ts : Nat}

/-- A search from a node whose whole subtree starts after the timestamp. -/
theorem find_eq_stack
    {parent : Option Address} {left right : BinaryTree Address}
    {stack : List Address} {fuel : Nat}
    (sound : Sound heap.links parent (.node this left right))
    (after : ∀ address ∈ inorder (.node this left right),
      ts < (heap.pub address).startTs)
    (enough : (BinaryTree.node this left right).height ≤ fuel) :
    find fuel heap stack this ts = .ok stack := by
  induction left generalizing this parent right fuel with
  | nil =>
      obtain ⟨fuel, rfl⟩ : ∃ n, fuel = n + 1 :=
        ⟨fuel - 1, by simp only [BinaryTree.height] at enough; omega⟩
      have goesLeft := after this (by simp)
      simp [find, goesLeft, sound.1]
  | node child outer between ih =>
      simp only [BinaryTree.height] at enough
      obtain ⟨fuel, rfl⟩ : ∃ n, fuel = n + 1 := ⟨fuel - 1, by omega⟩
      have goesLeft := after this (by simp)
      have below := ih sound.2.1 (fun address member => after address (by
        simp only [inorder_node, List.mem_append, List.mem_cons] at member ⊢
        tauto)) (show (BinaryTree.node child outer between).height ≤ fuel by
          simp only [BinaryTree.height]
          omega)
      simpa [find, goesLeft, sound.1] using below

/--
A search from a node whose subtree contains the timestamp: the stack then
stands for everything up to the interval of the timestamp.
-/
theorem find_eq
    {parent : Option Address} {tree : BinaryTree Address}
    {stack unvisited earlier later : List Address} {hit : Address} {fuel : Nat}
    (isRoot : root tree = some this)
    (sound : Sound heap.links parent tree)
    (pending : Pending heap.links stack unvisited)
    (split : inorder tree = earlier ++ hit :: later)
    (before : ∀ address ∈ earlier,
      (heap.pub address).startTs ≤ ts ∧ (heap.pub address).endTs < ts)
    (covers : (heap.pub hit).Covers ts)
    (after : ∀ address ∈ later, ts < (heap.pub address).startTs)
    (enough : tree.height ≤ fuel) :
    ∃ stack',
      find fuel heap stack this ts = .ok stack' ∧
        Pending heap.links stack' (unvisited ++ earlier ++ [hit]) := by
  induction tree generalizing this parent stack unvisited earlier later fuel with
  | nil => simp at isRoot
  | node label below above belowIH aboveIH =>
      simp only [root_node, Option.some.injEq] at isRoot
      subst isRoot
      simp only [BinaryTree.height] at enough
      obtain ⟨fuel, rfl⟩ : ∃ n, fuel = n + 1 := ⟨fuel - 1, by omega⟩
      rw [inorder_node] at split
      rcases split_cases split with
        ⟨rest, belowSplit, rfl⟩ | ⟨rfl, rfl, rfl⟩ | ⟨rest, rfl, aboveSplit⟩
      · have goesLeft : ts < (heap.pub label).startTs := after label (by simp)
        cases below with
        | nil => simp at belowSplit
        | node child outer between =>
            obtain ⟨stack', found, pending'⟩ :=
              belowIH rfl sound.2.1 pending belowSplit before (fun address member =>
                after address (by simp [member]))
                (show (BinaryTree.node child outer between).height ≤ fuel by omega)
            refine ⟨stack', ?_, pending'⟩
            simpa [find, goesLeft, sound.1] using found
      · refine ⟨label :: stack, ?_, .cons sound pending⟩
        have notLeft : ¬ ts < (heap.pub label).startTs := Nat.not_lt.2 covers.1
        have notRight : ¬ (heap.pub label).endTs < ts := Nat.not_lt.2 covers.2
        simp [find, notLeft, notRight]
      · obtain ⟨starts, ends⟩ := before label (by simp)
        cases above with
        | nil => simp at aboveSplit
        | node child between outer =>
            obtain ⟨stack', found, pending'⟩ :=
              aboveIH rfl sound.2.2 (.cons sound pending) aboveSplit
                (fun address member => before address (by simp [member])) after
                (show (BinaryTree.node child between outer).height ≤ fuel by omega)
            refine ⟨stack', ?_, by simpa using pending'⟩
            simpa [find, Nat.not_lt.2 starts, ends, sound.1] using found

/--
A search which goes on from a node that was popped.  Whatever starts after
the timestamp is skipped where it lies below the popped node, and stays on the
stack where it does not.  Either nothing is pushed, or the hit is on top.
-/
theorem find_next
    {stack unvisited earlier later : List Address} {hit : Address} {fuel : Nat}
    (pending : Pending heap.links (this :: stack) (unvisited ++ [this]))
    (starts : ts < (heap.pub this).startTs)
    (split : unvisited = earlier ++ hit :: later)
    (before : ∀ address ∈ earlier,
      (heap.pub address).startTs ≤ ts ∧ (heap.pub address).endTs < ts)
    (covers : (heap.pub hit).Covers ts)
    (after : ∀ address ∈ later, ts < (heap.pub address).startTs)
    (enough : unvisited.length < fuel) :
    ∃ stack' rest,
      find fuel heap stack this ts = .ok stack' ∧
        Pending heap.links stack' (earlier ++ hit :: rest) ∧ rest <+: later ∧
        (stack' = stack ∨ rest = [] ∧ ∀ address ∈ stack, address ∈ earlier) := by
  obtain ⟨parent, left, right, stack₁, first, sameStack, sound, pendingRest, rfl⟩ :=
    pending.exists_top
  obtain rfl : stack = stack₁ := by simpa using sameStack
  simp only [List.length_append] at enough
  obtain ⟨fuel, rfl⟩ : ∃ n, fuel = n + 1 := ⟨fuel - 1, by omega⟩
  cases left with
  | nil =>
      refine ⟨stack, later, ?_, ?_, List.prefix_rfl, .inl rfl⟩
      · simp [find, starts, sound.1]
      · rw [← split]
        simpa using pendingRest
  | node child outer between =>
      have height : (BinaryTree.node child outer between).height ≤ fuel := by
        have := height_le_length_inorder (.node child outer between)
        omega
      rcases List.append_eq_append_iff.1 split with
        ⟨rest, rfl, below⟩ | ⟨rest, rfl, tail⟩
      · obtain ⟨stack', found, pending'⟩ :=
          find_eq rfl sound.2.1 pendingRest below (fun address member =>
            before address (by simp [member])) covers after height
        refine ⟨stack', [], ?_, by simpa using pending', List.nil_prefix,
          .inr ⟨rfl, fun address member => by simp [pendingRest.mem member]⟩⟩
        simpa [find, starts, sound.1] using found
      · cases rest with
        | nil =>
            obtain ⟨stack', found, pending'⟩ :=
              find_eq rfl sound.2.1 pendingRest
                (show inorder (.node child outer between) = [] ++ hit :: later by
                  simpa using tail.symm)
                (by simp) covers after height
            refine ⟨stack', [], ?_, by simpa using pending', List.nil_prefix,
              .inr ⟨rfl, fun address member => by simpa using pendingRest.mem member⟩⟩
            simpa [find, starts, sound.1] using found
        | cons head rest =>
            simp only [List.cons_append, List.cons.injEq] at tail
            obtain ⟨rfl, rfl⟩ := tail
            refine ⟨stack, rest, ?_, pendingRest, List.prefix_append _ _, .inl rfl⟩
            have skipped : find fuel heap stack child ts = .ok stack :=
              find_eq_stack sound.2.1 (fun address member => after address (by
                simp only [List.mem_append]
                exact .inr member)) height
            simpa [find, starts, sound.1] using skipped

end AVLTreeLockNode

end Mvtx.Lock
