import Mvtx.Lock.Calls

/-!
# The search loop of tryLock

The loop pops a node, visits it and goes on with a search for `ts_start - 1`.
`Examines` lists the nodes that it visits.  From `ts_start = 1` on it visits
every node at most once, whatever the tree.  For `ts_start = 0` the search
point wraps to the end of time, the search pushes the popped node again, and
the loop ends only if a refusal is met before that.
-/

namespace Mvtx.Lock

open Lib Lib.AvlTree Lib.LinkedTree AVLTreeLockNode AVLTreeLockManager

/--
A balanced search tree whose intervals tile all timestamps, and of which the
first is `[0, 0]` and frozen.
-/
structure FrozenAtZero (heap : NodeHeap) (rootPtr : Address) (tree : BinaryTree Address) :
    Prop where
  isRoot : root tree = some rootPtr
  linked : Sound heap.links none tree
  balanced : Balanced tree
  ordered : Ordered (fun node => (heap.pub node).startTs) tree
  tiles : Tiles (fun node => (heap.pub node).startTs)
    (fun node => (heap.pub node).endTs) 0 (uintMax + 1) (inorder tree)
  origin : ∃ first rest, inorder tree = first :: rest ∧
    (heap.pub first).status.frozen = true ∧ (heap.pub first).startTs = 0 ∧
      (heap.pub first).endTs = 0
  allocated : ∀ node ∈ inorder tree, node < heap.size

/-- The nodes that the search loop visits, from a stack to its end. -/
inductive Examines (heap : NodeHeap) (tsStart : Nat) (isRead : Bool) :
    List Address → List Address → Prop where
  | exhausted : Examines heap tsStart isRead [] []
  | refused
      {node : Address}
      {locks : List Address}
      (refuses : searchVisit isRead (heap.pub node) = none) :
      Examines heap tsStart isRead (node :: locks) [node]
  | reached
      {node : Address}
      {locks : List Address}
      {pends : Bool}
      (visit : searchVisit isRead (heap.pub node) = some pends)
      (low : (heap.pub node).startTs ≤ tsStart) :
      Examines heap tsStart isRead (node :: locks) [node]
  | goesOn
      {node : Address}
      {locks locks' examined : List Address}
      {pends : Bool}
      (visit : searchVisit isRead (heap.pub node) = some pends)
      (high : tsStart < (heap.pub node).startTs)
      (found : find heap.fuel heap locks node (uintPred tsStart) = .ok locks')
      (later : Examines heap tsStart isRead locks' examined) :
      Examines heap tsStart isRead (node :: locks) (node :: examined)

section Loop

variable {heap : NodeHeap} {tsStart : Nat} {isRead : Bool} {locks examined : List Address}

/-- The nodes that the loop collects from those that it visits, or none. -/
def gathered (heap : NodeHeap) (isRead : Bool) (examined : List Address) :
    Option (List Address) :=
  if ∀ node ∈ examined, searchVisit isRead (heap.pub node) ≠ none then
    some (examined.filter fun node => searchVisit isRead (heap.pub node) = some true)
  else none

theorem gathered_cons {node : Address} {pends : Bool} (examined : List Address)
    (visit : searchVisit isRead (heap.pub node) = some pends) :
    gathered heap isRead (node :: examined) =
      (gathered heap isRead examined).map
        ((if pends then [node] else []) ++ ·) := by
  unfold gathered
  by_cases passes : ∀ node ∈ examined, searchVisit isRead (heap.pub node) ≠ none
  · have passes' : ∀ other ∈ node :: examined, searchVisit isRead (heap.pub other) ≠ none := by
      intro other member
      rcases List.mem_cons.1 member with rfl | later
      · simp [visit]
      · exact passes other later
    rw [if_pos passes, if_pos passes', List.filter_cons]
    cases pends <;> simp [visit]
  · rw [if_neg passes, if_neg fun all => passes fun other member =>
      all other (List.mem_cons_of_mem _ member)]
    rfl

/-- The loop returns what it has gathered from the nodes that it visits. -/
theorem Examines.searchLoop_eq (examines : Examines heap tsStart isRead locks examined)
    (pendLocks : List Address) {fuel : Nat} (enough : examined.length < fuel) :
    searchLoop heap tsStart isRead fuel locks pendLocks =
      .ok ((gathered heap isRead examined).map (pendLocks ++ ·)) := by
  induction examines generalizing pendLocks fuel with
  | exhausted =>
      obtain ⟨fuel, rfl⟩ : ∃ n, fuel = n + 1 := ⟨fuel - 1, by simp at enough; omega⟩
      simp [searchLoop, gathered]
  | refused refuses =>
      obtain ⟨fuel, rfl⟩ : ∃ n, fuel = n + 1 := ⟨fuel - 1, by simp at enough; omega⟩
      simp [searchLoop, gathered, refuses]
  | reached visit low =>
      obtain ⟨fuel, rfl⟩ : ∃ n, fuel = n + 2 := ⟨fuel - 2, by simp at enough; omega⟩
      rw [searchLoop_last low, gathered_cons [] visit, visit]
      simp only [gathered, Option.map_some]
      split <;> simp
  | @goesOn node locks locks' examined pends visit high found later ih =>
      obtain ⟨fuel, rfl⟩ : ∃ n, fuel = n + 1 := ⟨fuel - 1, by simp at enough; omega⟩
      have looped := ih (if pends then pendLocks ++ [node] else pendLocks)
        (show examined.length < fuel by simpa using enough)
      rw [gathered_cons examined visit]
      simp only [searchLoop, visit, high, if_true, found, bind, Except.bind]
      refine looped.trans ?_
      rw [Option.map_map]
      cases pends <;> simp [Function.comp_def]

/-- A loop that returns has visited some nodes and gathered its result from them. -/
theorem examines_of_searchLoop {fuel : Nat} {pendLocks : List Address}
    {result : Option (List Address)}
    (looped : searchLoop heap tsStart isRead fuel locks pendLocks = .ok result) :
    ∃ examined, Examines heap tsStart isRead locks examined ∧
      result = (gathered heap isRead examined).map (pendLocks ++ ·) := by
  induction fuel generalizing locks pendLocks with
  | zero => simp [searchLoop] at looped
  | succ fuel ih =>
      -- What a visit leads to is what the loop returns with enough fuel.
      have done : ∀ examined, Examines heap tsStart isRead locks examined →
          examined.length < fuel + 1 →
          ∃ examined, Examines heap tsStart isRead locks examined ∧
            result = (gathered heap isRead examined).map (pendLocks ++ ·) := by
        intro examined examines enough
        rw [examines.searchLoop_eq pendLocks enough] at looped
        exact ⟨examined, examines, (Except.ok.inj looped).symm⟩
      cases locks with
      | nil => exact done [] .exhausted (by simp)
      | cons node locks =>
          cases visit : searchVisit isRead (heap.pub node) with
          | none =>
              refine ⟨[node], .refused visit, ?_⟩
              simp only [searchLoop, visit, Except.ok.injEq] at looped
              simp [gathered, visit, ← looped]
          | some pends =>
              by_cases high : tsStart < (heap.pub node).startTs
              · cases found : find heap.fuel heap locks node (uintPred tsStart) with
                | error fault =>
                    simp [searchLoop, visit, high, found, bind, Except.bind] at looped
                | ok locks' =>
                    simp only [searchLoop, visit, high, if_true, found, bind,
                      Except.bind] at looped
                    obtain ⟨examined, examines, rfl⟩ := ih looped
                    refine ⟨node :: examined, .goesOn visit high found examines, ?_⟩
                    rw [gathered_cons examined visit, Option.map_map]
                    cases pends <;> simp [Function.comp_def]
              · cases fuel with
                | zero =>
                    simp only [searchLoop, visit, high, if_false, bind, Except.bind, pure,
                      Except.pure] at looped
                    exact absurd looped (by simp)
                | succ fuel =>
                    exact done [node] (.reached visit (Nat.not_lt.1 high)) (by simp)

/-- `find` stays among nodes that are closed under children. -/
theorem mem_of_find {nodes more : List Address} {this : Address} {fuel ts : Nat}
    (closed : ∀ node ∈ nodes, ∀ child, (heap.links node).left = some child ∨
      (heap.links node).right = some child → child ∈ nodes)
    (here : this ∈ nodes) (within : ∀ node ∈ locks, node ∈ nodes)
    (found : find fuel heap locks this ts = .ok more) : ∀ node ∈ more, node ∈ nodes := by
  induction fuel generalizing locks this with
  | zero => simp [find] at found
  | succ fuel ih =>
      have pushed : ∀ node ∈ this :: locks, node ∈ nodes := by
        intro node member
        rcases List.mem_cons.1 member with rfl | old
        · exact here
        · exact within node old
      unfold find at found
      split at found
      · split at found
        · exact Except.ok.inj found ▸ within
        · next left isLeft =>
            exact ih (closed this here left (.inl isLeft)) within found
      · split at found
        · split at found
          · exact Except.ok.inj found ▸ within
          · next right isRight =>
              exact ih (closed this here right (.inr isRight)) pushed found
        · exact Except.ok.inj found ▸ pushed

theorem Examines.mem {nodes : List Address}
    (examines : Examines heap tsStart isRead locks examined)
    (closed : ∀ node ∈ nodes, ∀ child, (heap.links node).left = some child ∨
      (heap.links node).right = some child → child ∈ nodes)
    (within : ∀ node ∈ locks, node ∈ nodes) : ∀ node ∈ examined, node ∈ nodes := by
  induction examines with
  | exhausted => simp
  | refused => simpa using within _ (by simp)
  | reached => simpa using within _ (by simp)
  | goesOn visit high found later ih =>
      have here := within _ List.mem_cons_self
      have rest := ih (mem_of_find closed here (fun node member =>
        within node (List.mem_cons_of_mem _ member)) found)
      intro node member
      rcases List.mem_cons.1 member with rfl | inLater
      · exact here
      · exact rest node inLater

/-- What the loop visits is determined. -/
theorem Examines.unique {examined' : List Address}
    (examines : Examines heap tsStart isRead locks examined)
    (examines' : Examines heap tsStart isRead locks examined') : examined = examined' := by
  induction examines generalizing examined' with
  | exhausted =>
      cases examines'
      rfl
  | refused refuses =>
      cases examines' with
      | refused => rfl
      | reached => rfl
      | goesOn visit => simp [refuses] at visit
  | reached visit low =>
      cases examines' with
      | refused => rfl
      | reached => rfl
      | goesOn _ high => exact absurd high (Nat.not_lt.2 low)
  | goesOn visit high found later ih =>
      cases examines' with
      | refused refuses => simp [refuses] at visit
      | reached _ low => exact absurd high (Nat.not_lt.2 low)
      | goesOn _ _ found' later' =>
          rw [found] at found'
          obtain rfl := Except.ok.inj found'
          rw [ih later']

end Loop

/-! ## From the first timestamp on -/

/--
The nodes that a search from a positive timestamp visits unless one of them
refuses: the nodes on the stack that start above the timestamp and the one
that starts there or, if there is none, the one that contains the timestamp
below.
-/
def Probes (heap : NodeHeap) (tsStart : Nat) (locks nodes : List Address)
    (node : Address) : Prop :=
  node ∈ locks ∧ tsStart ≤ (heap.pub node).startTs ∨
    (∀ other ∈ locks, (heap.pub other).startTs ≠ tsStart) ∧
      node ∈ nodes ∧ (heap.pub node).Covers (tsStart - 1)

section Probing

variable {heap : NodeHeap} {tsStart : Nat} {isRead : Bool} {this : Address}
  {above earlier locks : List Address}

/-- The last node of a part of the tiling starts above all the others. -/
theorem startTs_lt_of_last
    (tiles : Tiles (fun node => (heap.pub node).startTs)
      (fun node => (heap.pub node).endTs) 0 (uintMax + 1) (earlier ++ this :: above))
    {other : Address} (member : other ∈ earlier) :
    (heap.pub other).endTs < (heap.pub this).startTs := by
  obtain ⟨lowPart, -, -⟩ := tiles.around
  exact (lowPart.bounds member).2.2

/-- A node that starts at the timestamp or below it is the only probe. -/
theorem probes_iff_of_reached
    (tiles : Tiles (fun node => (heap.pub node).startTs)
      (fun node => (heap.pub node).endTs) 0 (uintMax + 1) (earlier ++ this :: above))
    (pending : Pending heap.links (this :: locks) (earlier ++ [this]))
    (positive : 1 ≤ tsStart) (near : tsStart ≤ (heap.pub this).endTs + 1)
    (low : (heap.pub this).startTs ≤ tsStart) (node : Address) :
    Probes heap tsStart (this :: locks) (earlier ++ this :: above) node ↔ node = this := by
  obtain ⟨lowPart, ordered, -⟩ := tiles.around
  obtain ⟨-, left, -, stack, first, same, -, rest, rfl⟩ := pending.exists_top
  obtain rfl := (List.cons.inj same).2
  have below : ∀ other ∈ locks, (heap.pub other).startTs < tsStart := fun other member =>
    have := startTs_lt_of_last tiles (List.mem_append_left (inorder left) (rest.mem member))
    have := (lowPart.bounds (List.mem_append_left (inorder left) (rest.mem member))).2.1
    by omega
  by_cases starts : (heap.pub this).startTs = tsStart
  · constructor
    · rintro (⟨member, high⟩ | ⟨none, -⟩)
      · rcases List.mem_cons.1 member with rfl | inStack
        · rfl
        · exact absurd (below node inStack) (by omega)
      · exact absurd starts (none this (by simp))
    · rintro rfl
      exact .inl ⟨by simp, Nat.le_of_eq starts.symm⟩
  · have none : ∀ other ∈ this :: locks, (heap.pub other).startTs ≠ tsStart := by
      intro other member
      rcases List.mem_cons.1 member with rfl | inStack
      · exact starts
      · exact Nat.ne_of_lt (below other inStack)
    have covers : (heap.pub this).Covers (tsStart - 1) := ⟨by omega, by omega⟩
    constructor
    · rintro (⟨member, high⟩ | ⟨-, member, covers'⟩)
      · rcases List.mem_cons.1 member with rfl | inStack
        · rfl
        · exact absurd (below node inStack) (by omega)
      · exact tiles.cover_unique _ member (by simp) covers' covers
    · rintro rfl
      exact .inr ⟨none, by simp, covers⟩

/-- A node that starts above the timestamp is a probe as long as it is on the stack. -/
theorem probes_cons_of_high {nodes : List Address} (high : tsStart < (heap.pub this).startTs)
    (node : Address) :
    Probes heap tsStart (this :: locks) nodes node ↔
      node = this ∨ Probes heap tsStart locks nodes node := by
  constructor
  · rintro (⟨member, starts⟩ | ⟨none, rest⟩)
    · rcases List.mem_cons.1 member with rfl | inStack
      · exact .inl rfl
      · exact .inr (.inl ⟨inStack, starts⟩)
    · exact .inr (.inr ⟨fun other member => none other (by simp [member]), rest⟩)
  · rintro (rfl | ⟨member, starts⟩ | ⟨none, rest⟩)
    · exact .inl ⟨by simp, Nat.le_of_lt high⟩
    · exact .inl ⟨by simp [member], starts⟩
    · refine .inr ⟨fun other member => ?_, rest⟩
      rcases List.mem_cons.1 member with rfl | inStack
      · exact Nat.ne_of_gt high
      · exact none other inStack

/-- Of a stack below the timestamp, nothing is a probe. -/
theorem probes_iff_of_below {nodes : List Address}
    (below : ∀ other ∈ locks, (heap.pub other).startTs < tsStart) (node : Address) :
    Probes heap tsStart locks nodes node ↔
      node ∈ nodes ∧ (heap.pub node).Covers (tsStart - 1) := by
  constructor
  · rintro (⟨member, starts⟩ | ⟨-, rest⟩)
    · exact absurd (below node member) (by omega)
    · exact rest
  · exact fun rest => .inr ⟨fun other member => Nat.ne_of_lt (below other member), rest⟩

/--
What the search visits from a stack whose top it has just reached.  The stack
stands for a first part of the nodes in order, and the part that it stands for
after a visit ends before the visited node.
-/
theorem exists_examines (isRead : Bool)
    (tiles : Tiles (fun node => (heap.pub node).startTs)
      (fun node => (heap.pub node).endTs) 0 (uintMax + 1) (earlier ++ this :: above))
    (pending : Pending heap.links (this :: locks) (earlier ++ [this]))
    (positive : 1 ≤ tsStart) (near : tsStart ≤ (heap.pub this).endTs + 1)
    (enough : earlier.length + 1 < heap.fuel) :
    ∃ examined, Examines heap tsStart isRead (this :: locks) examined ∧ examined.Nodup ∧
      (∀ node ∈ examined, node ∈ earlier ++ [this]) ∧
      (∀ node ∈ examined,
        Probes heap tsStart (this :: locks) (earlier ++ this :: above) node) ∧
      ((∀ node ∈ examined, searchVisit isRead (heap.pub node) ≠ none) → ∀ node,
        Probes heap tsStart (this :: locks) (earlier ++ this :: above) node →
          node ∈ examined) := by
  induction size : earlier.length using Nat.strong_induction_on
    generalizing this above earlier locks with
  | _ size ih =>
      subst size
      by_cases low : (heap.pub this).startTs ≤ tsStart
      · have probes := probes_iff_of_reached tiles pending positive near low
        refine ⟨[this], ?_, by simp, by simp, by simp [probes], by simp [probes]⟩
        cases visit : searchVisit isRead (heap.pub this) with
        | none => exact .refused visit
        | some pends => exact .reached visit low
      have high : tsStart < (heap.pub this).startTs := Nat.not_le.1 low
      have here : Probes heap tsStart (this :: locks) (earlier ++ this :: above) this :=
        .inl ⟨by simp, Nat.le_of_lt high⟩
      cases visit : searchVisit isRead (heap.pub this) with
      | none =>
          exact ⟨[this], .refused visit, by simp, by simp, by simpa using here,
            by simp [visit]⟩
      | some pends =>
          obtain ⟨lowPart, -, -⟩ := tiles.around
          obtain ⟨before, hit, between, rfl, covers⟩ :=
            lowPart.exists_cover (tsStart - 1) (Nat.zero_le _) (by omega)
          have tiles' := tiles
          rw [List.append_assoc, List.cons_append] at tiles'
          obtain ⟨beforeHit, afterHit⟩ := tiles'.around_point covers
          obtain ⟨locks', kept, found, pending', isPrefix, pushed⟩ :=
            find_next pending (show tsStart - 1 < _ by omega) rfl beforeHit covers
              (fun node member => afterHit node (by simp [member]))
              (show (before ++ hit :: between).length < heap.fuel by omega)
          obtain ⟨skipped, rfl⟩ := isPrefix
          -- The stack now ends at the last of the nodes that were kept.
          obtain ⟨earlier', next, split, near'⟩ : ∃ earlier' next,
              before ++ hit :: kept = earlier' ++ [next] ∧
                tsStart ≤ (heap.pub next).endTs + 1 := by
            rcases List.eq_nil_or_concat kept with rfl | ⟨kept, final, rfl⟩
            · exact ⟨before, hit, rfl, by have := covers.2; omega⟩
            · have starts := afterHit final (by simp)
              have ordered := (tiles'.bounds (show final ∈ _ by simp)).2.1
              exact ⟨before ++ hit :: kept, final, by simp, by omega⟩
          have nodes : before ++ hit :: (kept ++ skipped) ++ this :: above =
              earlier' ++ next :: (skipped ++ this :: above) := by
            have := congrArg (· ++ (skipped ++ this :: above)) split
            simpa using this
          have lengths := congrArg List.length split
          simp only [List.length_append, List.length_cons, List.length_nil] at lengths enough
          have inEarlier : ∀ node ∈ earlier' ++ [next],
              node ∈ before ++ hit :: (kept ++ skipped) := by
            intro node member
            rw [← split] at member
            simp only [List.mem_append, List.mem_cons] at member ⊢
            tauto
          have pendingNext := split ▸ pending'
          obtain ⟨-, -, -, locks'', -, rfl, -, -, -⟩ := pendingNext.exists_top
          have probes : ∀ node,
              Probes heap tsStart (this :: locks)
                  (before ++ hit :: (kept ++ skipped) ++ this :: above) node ↔
                node = this ∨ Probes heap tsStart (next :: locks'')
                  (earlier' ++ next :: (skipped ++ this :: above)) node := by
            intro node
            rw [probes_cons_of_high high, nodes]
            refine or_congr_right ?_
            rcases pushed with rfl | ⟨rfl, below⟩
            · rfl
            · rw [probes_iff_of_below, probes_iff_of_below]
              · intro other member
                have inPart := pending'.mem member
                rcases List.mem_append.1 inPart with isBefore | isHit
                · have := (beforeHit other isBefore).1
                  omega
                · obtain rfl := List.mem_singleton.1 isHit
                  have := covers.1
                  omega
              · intro other member
                have := (beforeHit other (below other member)).1
                omega
          obtain ⟨examined, examines, distinct, within, sound, complete⟩ :=
            ih earlier'.length (by simp only [List.length_append, List.length_cons]; omega)
              (nodes ▸ tiles) pendingNext near' (by omega) rfl
          have fresh : this ∉ examined := fun member =>
            have := startTs_lt_of_last tiles (inEarlier this (within this member))
            have := tiles.around.2.1
            by omega
          refine ⟨this :: examined, .goesOn visit high ?_ examines,
            List.nodup_cons.2 ⟨fresh, distinct⟩, fun node member => ?_,
            fun node member => ?_, fun passes node probe => ?_⟩
          · rw [uintPred_eq positive]
            exact found
          · rcases List.mem_cons.1 member with rfl | later
            · simp
            · exact List.mem_append_left _ (inEarlier node (within node later))
          · rw [probes]
            exact (List.mem_cons.1 member).imp_right (sound node)
          · rw [probes] at probe
            exact List.mem_cons.2 (probe.imp_right
              (complete (fun other later => passes other (by simp [later])) node))

end Probing

/-! ## From the timestamp zero on -/

section Wrapped

variable {heap : NodeHeap} {isRead : Bool} {this top : Address}
  {locks more : List Address} {fuel ts : Nat}

/-- `find` pushes onto the stack that it is given. -/
theorem find_push (fuel : Nat) (heap : NodeHeap) (locks : List Address)
    (this : Address) (ts : Nat) :
    find fuel heap locks this ts = (find fuel heap [] this ts).map (· ++ locks) := by
  induction fuel generalizing locks this with
  | zero => rfl
  | succ fuel ih =>
      unfold find
      split
      · split
        · rfl
        · exact ih locks _
      · split
        · split
          · rfl
          · next right _ =>
              rw [ih (this :: locks) right, ih [this] right]
              cases find fuel heap [] right ts <;> simp [Except.map]
        · rfl

theorem find_mono {larger : Nat} (found : find fuel heap locks this ts = .ok more)
    (enough : fuel ≤ larger) : find larger heap locks this ts = .ok more := by
  induction fuel generalizing locks this larger with
  | zero => simp [find] at found
  | succ fuel ih =>
      obtain ⟨larger, rfl⟩ : ∃ n, larger = n + 1 := ⟨larger - 1, by omega⟩
      unfold find at found ⊢
      split at found
      · next left =>
          rw [if_pos left]
          split at found
          · next absent => simpa only [absent] using found
          · next child isLeft =>
              simpa only [isLeft] using ih found (Nat.le_of_succ_le_succ enough)
      · next notLeft =>
          rw [if_neg notLeft]
          split at found
          · next right =>
              rw [if_pos right]
              split at found
              · next absent => simpa only [absent] using found
              · next child isRight =>
                  simpa only [isRight] using ih found (Nat.le_of_succ_le_succ enough)
          · next notRight => rwa [if_neg notRight]

/-- The node which a search leaves on top of the stack is all that a search from it finds. -/
theorem find_top (found : find fuel heap [] this ts = .ok (top :: more)) :
    find fuel heap [] top ts = .ok [top] := by
  induction fuel generalizing this more with
  | zero => simp [find] at found
  | succ fuel ih =>
      unfold find at found
      split at found
      · split at found
        · simp at found
        · exact find_mono (ih found) (Nat.le_succ fuel)
      · next notLeft =>
          split at found
          · next goesRight =>
              split at found
              · simp at found
              · next right isRight =>
                  rw [find_push] at found
                  cases below : find fuel heap [] right ts with
                  | error fault => simp [below, Except.map] at found
                  | ok pushed =>
                      rw [below] at found
                      simp only [Except.map, Except.ok.injEq] at found
                      cases pushed with
                      | nil =>
                          -- Nothing was pushed below, so the top is the node itself.
                          obtain ⟨rfl, -⟩ : this = top ∧ [] = more := by simpa using found
                          simp [find, notLeft, goesRight, isRight, find_push fuel heap [this],
                            below, Except.map]
                      | cons first pushed =>
                          obtain ⟨rfl, -⟩ : first = top ∧ pushed ++ [this] = more := by
                            simpa using found
                          exact find_mono (ih below) (Nat.le_succ fuel)
          · next covered =>
              obtain ⟨rfl, -⟩ : this = top ∧ [] = more := by simpa using found
              simp [find, notLeft, covered]

/-- The search ends at an interval that refuses the lock or starts at zero. -/
def EndsSearch (isRead : Bool) (lock : Interval) : Prop :=
  searchVisit isRead lock = none ∨ lock.startTs = 0

/--
Whether a search from the timestamp zero ends.  From a node at which it does
not end it goes on to the end of time: that search pushes nothing, and the next
node on the stack is visited, or the search ends at the node that it leaves on
top.
-/
def Halts (heap : NodeHeap) (isRead : Bool) : List Address → Prop
  | [] => True
  | node :: locks =>
      EndsSearch isRead (heap.pub node) ∨
        match find heap.fuel heap [] node uintMax with
        | .ok [] => Halts heap isRead locks
        | .ok (top :: _) => EndsSearch isRead (heap.pub top)
        | .error _ => False

theorem Examines.of_endsSearch (ended : EndsSearch isRead (heap.pub this)) :
    Examines heap 0 isRead (this :: locks) [this] := by
  cases visit : searchVisit isRead (heap.pub this) with
  | none => exact .refused visit
  | some pends =>
      rcases ended with refuses | zero
      · simp [refuses] at visit
      · exact .reached visit (Nat.le_of_eq zero)

/-- A search that halts visits every node at most once. -/
theorem exists_examines_of_halts (halts : Halts heap isRead locks) (nodup : locks.Nodup) :
    ∃ examined, Examines heap 0 isRead locks examined ∧ examined.Nodup ∧
      ∀ node ∈ examined, node ∈ locks ∨ EndsSearch isRead (heap.pub node) := by
  induction locks with
  | nil => exact ⟨[], .exhausted, by simp, by simp⟩
  | cons node locks ih =>
      obtain ⟨fresh, nodup⟩ := List.nodup_cons.1 nodup
      by_cases ended : EndsSearch isRead (heap.pub node)
      · exact ⟨[node], .of_endsSearch ended, by simp, by simp⟩
      obtain ⟨pends, visit⟩ : ∃ pends, searchVisit isRead (heap.pub node) = some pends :=
        Option.ne_none_iff_exists'.1 fun refuses => ended (.inl refuses)
      have high : 0 < (heap.pub node).startTs :=
        Nat.pos_of_ne_zero fun zero => ended (.inr zero)
      have pushes := find_push heap.fuel heap locks node uintMax
      rw [Halts, or_iff_right ended] at halts
      cases found : find heap.fuel heap [] node uintMax with
      | error fault => simp [found] at halts
      | ok pushed =>
          rw [found] at halts pushes
          have goesOn : ∀ examined, Examines heap 0 isRead (pushed ++ locks) examined →
              Examines heap 0 isRead (node :: locks) (node :: examined) :=
            fun _ later => .goesOn visit high pushes later
          cases pushed with
          | nil =>
              obtain ⟨examined, examines, distinct, within⟩ := ih halts nodup
              refine ⟨node :: examined, goesOn examined examines,
                List.nodup_cons.2 ⟨fun member => ?_, distinct⟩, fun other member => ?_⟩
              · exact (within node member).elim fresh ended
              · rcases List.mem_cons.1 member with rfl | later
                · simp
                · exact (within other later).imp (List.mem_cons_of_mem _) id
          | cons top pushed =>
              refine ⟨[node, top], goesOn [top] (.of_endsSearch halts), ?_, ?_⟩
              · have different : node ≠ top := fun same => ended (same ▸ halts)
                simpa using different
              · rintro other member
                rcases List.mem_cons.1 member with rfl | later
                · simp
                · obtain rfl := List.mem_singleton.1 later
                  exact .inr halts

/-- A search does not get past a node that a search from it finds again. -/
theorem not_examines_of_find_self {examined : List Address}
    (again : find heap.fuel heap [] top uintMax = .ok [top])
    (goesOn : ¬ EndsSearch isRead (heap.pub top)) :
    ¬ Examines heap 0 isRead (top :: locks) examined := by
  intro examines
  generalize stack : top :: locks = whole at examines
  induction examines generalizing locks with
  | exhausted => simp at stack
  | refused refuses =>
      obtain ⟨rfl, -⟩ := List.cons.inj stack
      exact goesOn (.inl refuses)
  | reached _ low =>
      obtain ⟨rfl, -⟩ := List.cons.inj stack
      exact goesOn (.inr (Nat.le_zero.1 low))
  | @goesOn _ _ locks' _ _ _ _ found _ ih =>
      obtain ⟨rfl, rfl⟩ := List.cons.inj stack
      refine @ih locks ?_
      have found' : find heap.fuel heap locks top uintMax = .ok locks' := found
      rw [find_push, again] at found'
      simpa [Except.map] using found'

/-- A search that ends halts. -/
theorem halts_of_examines {examined : List Address}
    (examines : Examines heap 0 isRead locks examined) : Halts heap isRead locks := by
  induction examines with
  | exhausted => trivial
  | refused refuses => exact .inl (.inl refuses)
  | reached _ low => exact .inl (.inr (Nat.le_zero.1 low))
  | @goesOn node locks locks' examined pends visit high found later ih =>
      refine .inr ?_
      have found' : find heap.fuel heap locks node uintMax = .ok locks' := found
      rw [find_push] at found'
      cases pushes : find heap.fuel heap [] node uintMax with
      | error fault => simp [pushes, Except.map] at found'
      | ok pushed =>
          rw [pushes] at found'
          simp only [Except.map, Except.ok.injEq] at found'
          subst found'
          cases pushed with
          | nil => exact ih
          | cons top pushed =>
              by_contra goesOn
              exact not_examines_of_find_self (find_top pushes) goesOn later

end Wrapped

/-! ## Both cases -/

theorem Pending.nodup {links : LinkMap} {stack unvisited : List Address}
    (pending : Pending links stack unvisited) (nodup : unvisited.Nodup) : stack.Nodup := by
  induction pending with
  | nil => exact List.nodup_nil
  | @cons this _ left _ stack unvisited here rest ih =>
      rw [List.append_assoc] at nodup
      obtain ⟨first, -, apart⟩ := List.nodup_append.1 nodup
      exact List.nodup_cons.2 ⟨fun member => apart this (rest.mem member) this (by simp) rfl,
        ih first⟩

theorem FrozenAtZero.nodup {heap : NodeHeap} {rootPtr : Address}
    {tree : BinaryTree Address} (frozen : FrozenAtZero heap rootPtr tree) :
    (inorder tree).Nodup :=
  (ordered_iff.1 frozen.ordered).imp fun less same => by simp [same] at less

/-- A search from the root, in a tree of intervals that tile all timestamps. -/
theorem FrozenAtZero.find_root {heap : NodeHeap} {rootPtr : Address}
    {tree : BinaryTree Address} (frozen : FrozenAtZero heap rootPtr tree) {ts : Nat}
    (bound : ts ≤ uintMax) :
    ∃ locks before hit above,
      find heap.fuel heap [] rootPtr ts = .ok (hit :: locks) ∧
        inorder tree = before ++ hit :: above ∧
        Pending heap.links (hit :: locks) (before ++ [hit]) ∧
        (heap.pub hit).Covers ts ∧ before.length + 1 < heap.fuel := by
  obtain ⟨before, hit, above, order, covers⟩ :=
    frozen.tiles.exists_cover ts (Nat.zero_le _) (by omega)
  have tiles := frozen.tiles
  rw [order] at tiles
  obtain ⟨beforeHit, afterHit⟩ := tiles.around_point covers
  have short := length_le_of_nodup_of_lt frozen.nodup frozen.allocated
  have height := height_le_length_inorder tree
  obtain ⟨locks, found, pending⟩ :=
    find_eq frozen.isRoot frozen.linked .nil order beforeHit covers afterHit
      (show tree.height ≤ heap.fuel by unfold NodeHeap.fuel; omega)
  rw [List.nil_append] at pending
  obtain ⟨-, -, -, rest, -, rfl, -, -, -⟩ := pending.exists_top
  refine ⟨rest, before, hit, above, found, order, pending, covers, ?_⟩
  rw [order] at short
  simp only [List.length_append, List.length_cons] at short
  unfold NodeHeap.fuel
  omega

/-- Whether the search of `tryLock` from a stack ends after visiting nodes at most once. -/
def Finishes (heap : NodeHeap) (tsStart : Nat) (isRead : Bool) (locks : List Address) :
    Prop :=
  ∃ examined, Examines heap tsStart isRead locks examined ∧ examined.Nodup

/--
The search loop of `tryLock` ends after visiting every interval at most once
if and only if it starts from a positive timestamp, or halts before it comes
back to a node; the loop of the model then returns.
-/
theorem searchLoop_finishes_iff {heap : NodeHeap} {rootPtr : Address}
    {tree : BinaryTree Address} (frozen : FrozenAtZero heap rootPtr tree)
    {tsStart tsEnd : Nat} (ordered : tsStart ≤ tsEnd) (bound : tsEnd ≤ uintMax)
    (isRead : Bool) :
    ∃ locks, find heap.fuel heap [] rootPtr tsEnd = .ok locks ∧
      (Finishes heap tsStart isRead locks ↔ 1 ≤ tsStart ∨ Halts heap isRead locks) ∧
        (Finishes heap tsStart isRead locks → ∃ fuel result,
          searchLoop heap tsStart isRead fuel locks [] = .ok result) := by
  obtain ⟨locks, before, hit, above, found, order, pending, covers, enough⟩ :=
    frozen.find_root bound
  refine ⟨hit :: locks, found, ?_, ?_⟩
  · rcases Nat.eq_zero_or_pos tsStart with rfl | positive
    · rw [or_iff_right (by omega)]
      constructor
      · rintro ⟨examined, examines, -⟩
        exact halts_of_examines examines
      · intro halts
        have nodup : (before ++ [hit]).Nodup := by
          have whole : (before ++ [hit] ++ above).Nodup := by
            simpa [order] using frozen.nodup
          exact (List.nodup_append.1 whole).1
        obtain ⟨examined, examines, distinct, -⟩ :=
          exists_examines_of_halts halts (pending.nodup nodup)
        exact ⟨examined, examines, distinct⟩
    · refine iff_of_true ?_ (.inl positive)
      obtain ⟨examined, examines, distinct, -⟩ :=
        exists_examines isRead (order ▸ frozen.tiles) pending positive
          (by have := covers.2; omega) enough
      exact ⟨examined, examines, distinct⟩
  · rintro ⟨examined, examines, -⟩
    exact ⟨_, _, examines.searchLoop_eq [] (Nat.lt_succ_self _)⟩

theorem KeyInfo.WellFormed.frozenAtZero {info : KeyInfo} (wellFormed : info.WellFormed) :
    ∃ tree, FrozenAtZero info.heap info.root tree := by
  have laid : Laid info.heap info.root info.nodes := wellFormed
  obtain ⟨first, rest, order', isOrigin⟩ := laid.origin
  obtain ⟨tree, stored, order⟩ := laid.stored
  refine ⟨tree, stored.isRoot, stored.sound, stored.balanced, ?_, order ▸ laid.tiles,
    ⟨first, rest, order.trans order', ?_⟩, stored.allocated⟩
  · rw [ordered_iff, order]
    exact laid.tiles.pairwise_lower
  · rw [isOrigin]
    exact ⟨rfl, rfl, rfl⟩

/-- A search for `[2, 5]` in the tree of a new key. -/
theorem searchLoop_finishes_iff_of_new :
    ∃ info, newKeyInfo = .ok info ∧
      ∃ locks, find info.heap.fuel info.heap [] info.root 5 = .ok locks ∧
        (Finishes info.heap 2 false locks ↔ 1 ≤ 2 ∨ Halts info.heap false locks) ∧
          (Finishes info.heap 2 false locks → ∃ fuel result,
            searchLoop info.heap 2 false fuel locks [] = .ok result) := by
  obtain ⟨info, created, wellFormed, -, -⟩ := newKeyInfo_eq
  obtain ⟨tree, frozen⟩ := wellFormed.frozenAtZero
  exact ⟨info, created, searchLoop_finishes_iff frozen (by decide) (by decide) false⟩

/-- In the tree of a new key, the search of a `tryLock` of `[0, 5]` never ends. -/
theorem not_finishes_of_new :
    ∃ info tree, newKeyInfo = .ok info ∧ FrozenAtZero info.heap info.root tree ∧
      ∃ locks, find info.heap.fuel info.heap [] info.root 5 = .ok locks ∧
        ¬ Finishes info.heap 0 false locks ∧
          ∀ fuel result, searchLoop info.heap 0 false fuel locks [] ≠ .ok result := by
  obtain ⟨info, created, wellFormed, -, -⟩ := newKeyInfo_eq
  obtain ⟨tree, frozen⟩ := wellFormed.frozenAtZero
  have facts : newKeyInfo.map (fun info =>
      (find info.heap.fuel info.heap [] info.root 5,
        find info.heap.fuel info.heap [] 1 uintMax,
        searchVisit false (info.heap.pub 1), (info.heap.pub 1).startTs)) =
      .ok (.ok [1, 0], .ok [1], some true, 1) := rfl
  simp only [created, Except.map, Except.ok.injEq, Prod.mk.injEq] at facts
  obtain ⟨found, again, visit, starts⟩ := facts
  have goesOn : ¬ EndsSearch false (info.heap.pub 1) := by
    simp [EndsSearch, visit, starts]
  refine ⟨info, tree, created, frozen, [1, 0], found, ?_, fun fuel result looped => ?_⟩
  · rintro ⟨examined, examines, -⟩
    exact not_examines_of_find_self again goesOn examines
  · obtain ⟨examined, examines, -⟩ := examines_of_searchLoop looped
    exact not_examines_of_find_self again goesOn examines

end Mvtx.Lock
