import Mvtx.Lock.Timeline

/-!
# What tryLock does

`tryLock` collects the intervals between two timestamps and then cuts and
locks them one by one.  `Locked` says what the second part does.  The search
of the first part goes on at `tsStart - 1`, so that it can end at the interval
just below the range; `overreaches` says when that happens, and
`tryLock_eq` covers every other call.  A call for a single timestamp never
overreaches, and `tryLock_point` is exact for these.
-/

namespace Mvtx.Lock

open Lib Lib.AvlTree Lib.LinkedTree AVLTreeLockNode AVLTreeLockManager

/-! ## Locking the intervals -/

/-- What is cut off below the range. -/
def lowPiece (tsStart : Nat) (lock : Interval) : List Interval :=
  if lock.startTs < tsStart then [{ lock with endTs := tsStart - 1 }] else []

/-- What is cut off above the range. -/
def highPiece (tsEnd : Nat) (lock : Interval) : List Interval :=
  if tsEnd < lock.endTs then [{ lock with startTs := tsEnd + 1 }] else []

/-- The part of an interval that is locked. -/
def lockPiece (tid tsStart tsEnd : Nat) (isRead : Bool) (lock : Interval) :
    Interval where
  status := if isRead then .readLock else .writeLock
  startTs := max lock.startTs tsStart
  endTs := min lock.endTs tsEnd
  tids := insert tid lock.tids

/-- What becomes of an interval that is locked. -/
def lockPieces (tid tsStart tsEnd : Nat) (isRead : Bool) (lock : Interval) :
    List Interval :=
  lowPiece tsStart lock ++ lockPiece tid tsStart tsEnd isRead lock ::
    highPiece tsEnd lock

section LockNode

variable {heap : NodeHeap} {rootPtr node : Address} {below above : List Address}
  {tsStart tsEnd : Nat}

theorem cutBelow_eq
    (laid : Laid heap rootPtr (below ++ node :: above))
    (ends : tsStart ≤ (heap.pub node).endTs) :
    ∃ heap' rootPtr' low,
      cutBelow heap rootPtr tsStart node = .ok (heap', rootPtr') ∧
        Laid heap' rootPtr' (below ++ low ++ node :: above) ∧
        low.map heap'.pub = lowPiece tsStart (heap.pub node) ∧
        heap'.pub node = { heap.pub node with
          startTs := max (heap.pub node).startTs tsStart } ∧
        ∀ address ∈ below ++ above, heap'.pub address = heap.pub address := by
  by_cases before : (heap.pub node).startTs < tsStart
  · obtain ⟨heap', rootPtr', inserted, laid', pubNode, pubNew, others⟩ :=
      laid.cut_below ⟨before, ends⟩ rfl
    refine ⟨heap', rootPtr', [heap.size], ?_, by simpa using laid', ?_, ?_, others⟩
    · rw [cutBelow, if_pos before]
      exact inserted
    · simp [lowPiece, before, pubNew]
    · rw [pubNode, max_eq_right (Nat.le_of_lt before)]
  · refine ⟨heap, rootPtr, [], if_neg before, by simpa using laid, ?_, ?_,
      fun _ _ => rfl⟩
    · simp [lowPiece, before]
    · rw [max_eq_left (Nat.not_lt.1 before)]

theorem cutAbove_eq
    (laid : Laid heap rootPtr (below ++ node :: above))
    (starts : (heap.pub node).startTs ≤ tsEnd) :
    ∃ heap' rootPtr' high,
      cutAbove heap rootPtr tsEnd node = .ok (heap', rootPtr') ∧
        Laid heap' rootPtr' (below ++ node :: (high ++ above)) ∧
        high.map heap'.pub = highPiece tsEnd (heap.pub node) ∧
        heap'.pub node = { heap.pub node with
          endTs := min (heap.pub node).endTs tsEnd } ∧
        ∀ address ∈ below ++ above, heap'.pub address = heap.pub address := by
  by_cases after : tsEnd < (heap.pub node).endTs
  · obtain ⟨heap', rootPtr', inserted, laid', pubNode, pubNew, others⟩ :=
      laid.cut_above ⟨starts, after⟩ rfl
    refine ⟨heap', rootPtr', [heap.size], ?_, by simpa using laid', ?_, ?_, others⟩
    · rw [cutAbove, if_pos after]
      exact inserted
    · simp [highPiece, after, pubNew]
    · rw [pubNode, min_eq_right (Nat.le_of_lt after)]
  · refine ⟨heap, rootPtr, [], if_neg after, by simpa using laid, ?_, ?_,
      fun _ _ => rfl⟩
    · simp [highPiece, after]
    · rw [min_eq_left (Nat.not_lt.1 after)]

/-- One interval of the range is cut and locked. -/
theorem lockNode_eq (tid : Nat) (isRead : Bool)
    (laid : Laid heap rootPtr (below ++ node :: above))
    (positive : 1 ≤ tsStart) (ordered : tsStart ≤ tsEnd)
    (starts : (heap.pub node).startTs ≤ tsEnd)
    (ends : tsStart ≤ (heap.pub node).endTs) :
    ∃ heap' rootPtr' low high,
      lockNode heap rootPtr tid tsStart tsEnd isRead node = .ok (heap', rootPtr') ∧
        Laid heap' rootPtr' (below ++ (low ++ node :: high) ++ above) ∧
        (low ++ node :: high).map heap'.pub =
          lockPieces tid tsStart tsEnd isRead (heap.pub node) ∧
        ∀ address ∈ below ++ above, heap'.pub address = heap.pub address := by
  obtain ⟨heap₁, rootPtr₁, low, lowCut, laid₁, lowPub, node₁, others₁⟩ :=
    cutBelow_eq laid ends
  have starts₁ : (heap₁.pub node).startTs ≤ tsEnd := by
    rw [node₁]
    exact max_le starts ordered
  obtain ⟨heap₂, rootPtr₂, high, highCut, laid₂, highPub, node₂, others₂⟩ :=
    cutAbove_eq laid₁ starts₁
  let lock : Interval → Interval := fun lock =>
    { lock with
      status := if isRead then .readLock else .writeLock
      tids := insert tid lock.tids }
  have distinct : ∀ address ∈ below ++ low ++ (high ++ above), address ≠ node := by
    have nodup := laid₂.nodup
    rw [List.perm_middle.nodup_iff, List.nodup_cons] at nodup
    rintro address member rfl
    exact nodup.1 member
  have others₃ : ∀ address ∈ below ++ low ++ (high ++ above),
      (heap₂.modifyPub node lock).pub address = heap₂.pub address :=
    fun address member => Function.update_of_ne (distinct address member) _ _
  refine ⟨heap₂.modifyPub node lock, rootPtr₂, low, high, ?_, ?_, ?_, ?_⟩
  · simp only [lockNode, lowCut, bind, Except.bind, highCut]
    rfl
  · have nonzero : (heap₂.pub node).endTs ≠ 0 := by
      rw [node₂, node₁]
      simp only
      omega
    have laid₃ : Laid (heap₂.modifyPub node lock) rootPtr₂
        (below ++ low ++ node :: (high ++ above)) := by
      refine laid₂.setPub (fun other _ => ?_) (fun other _ isOrigin => ?_)
      · by_cases same : other = node
        · subst same
          simp [lock]
        · simp [same]
      · by_cases same : other = node
        · subst same
          rw [isOrigin] at nonzero
          exact absurd rfl nonzero
        · simp [same, isOrigin]
    simpa using laid₃
  · rw [List.map_append, List.map_cons, lockPieces]
    have lowMap : low.map (heap₂.modifyPub node lock).pub =
        lowPiece tsStart (heap.pub node) := by
      rw [← lowPub]
      refine List.map_congr_left fun address member => ?_
      rw [others₃ address (by simp [member]), others₂ address (by simp [member])]
    have highMap : high.map (heap₂.modifyPub node lock).pub =
        highPiece tsEnd (heap.pub node) := by
      have same : highPiece tsEnd (heap₁.pub node) = highPiece tsEnd (heap.pub node) := by
        rw [node₁]
        rfl
      rw [← same, ← highPub]
      exact List.map_congr_left fun address member => others₃ address (by simp [member])
    have middle : (heap₂.modifyPub node lock).pub node =
        lockPiece tid tsStart tsEnd isRead (heap.pub node) := by
      simp only [NodeHeap.modifyPub, Function.update_self, lock, node₂, node₁]
      rfl
    rw [lowMap, highMap, middle]
  · intro address member
    have inWhole : address ∈ below ++ low ++ (high ++ above) := by
      rcases List.mem_append.1 member with isBelow | isAbove
      · simp [isBelow]
      · simp [isAbove]
    have inFirst : address ∈ below ++ low ++ above := by
      rcases List.mem_append.1 member with isBelow | isAbove
      · simp [isBelow]
      · simp [isAbove]
    rw [others₃ address inWhole, others₂ address inFirst, others₁ address member]

/-- All the collected intervals are cut and locked. -/
theorem lockNodes_eq (tid : Nat) (isRead : Bool) {nodes pendLocks : List Address}
    (laid : Laid heap rootPtr nodes)
    (positive : 1 ≤ tsStart) (ordered : tsStart ≤ tsEnd)
    (nodup : pendLocks.Nodup)
    (meets : ∀ node ∈ pendLocks, node ∈ nodes ∧
      (heap.pub node).startTs ≤ tsEnd ∧ tsStart ≤ (heap.pub node).endTs) :
    ∃ heap' rootPtr' nodes',
      lockNodes tid tsStart tsEnd isRead pendLocks heap rootPtr =
          .ok (heap', rootPtr') ∧
        Laid heap' rootPtr' nodes' ∧
        (nodes'.map heap'.pub = nodes.flatMap fun node =>
          if node ∈ pendLocks then
            lockPieces tid tsStart tsEnd isRead (heap.pub node)
          else [heap.pub node]) ∧
        ∀ node ∈ nodes, node ∉ pendLocks →
          node ∈ nodes' ∧ heap'.pub node = heap.pub node := by
  induction pendLocks generalizing heap rootPtr nodes with
  | nil =>
      refine ⟨heap, rootPtr, nodes, rfl, laid, ?_, fun node member _ => ⟨member, rfl⟩⟩
      simp only [List.not_mem_nil, if_false]
      exact List.map_eq_flatMap
  | cons first pendLocks ih =>
      obtain ⟨fresh, nodup⟩ := List.nodup_cons.1 nodup
      obtain ⟨member, starts, ends⟩ := meets first (by simp)
      obtain ⟨below, above, rfl⟩ := List.append_of_mem member
      obtain ⟨heap₁, rootPtr₁, low, high, locked, laid₁, pieces, others⟩ :=
        lockNode_eq tid isRead laid positive ordered starts ends
      have elsewhere : ∀ node ∈ pendLocks, node ∈ below ++ above := by
        intro node later
        have inNodes := (meets node (by simp [later])).1
        have different : node ≠ first := by
          rintro rfl
          exact fresh later
        simp only [List.mem_append, List.mem_cons] at inNodes ⊢
        tauto
      obtain ⟨heap', rootPtr', nodes', rest, laid', order, untouched⟩ :=
        ih laid₁ nodup fun node later => by
          have old := others node (elsewhere node later)
          obtain ⟨-, starts', ends'⟩ := meets node (by simp [later])
          refine ⟨?_, old ▸ starts', old ▸ ends'⟩
          have := elsewhere node later
          simp only [List.mem_append] at this ⊢
          tauto
      refine ⟨heap', rootPtr', nodes', ?_, laid', ?_, fun node inNodes notPending => ?_⟩
      · simp only [lockNodes, locked, bind, Except.bind]
        exact rest
      · have nodup₁ := laid₁.nodup
        have outside : ∀ node ∈ low ++ first :: high, node ∉ pendLocks := by
          intro node here later
          rw [List.append_assoc, List.nodup_append, List.nodup_append] at nodup₁
          rcases List.mem_append.1 (elsewhere node later) with isBelow | isAbove
          · exact nodup₁.2.2 node isBelow node (List.mem_append_left _ here) rfl
          · exact nodup₁.2.1.2.2 node here node isAbove rfl
        have kept : ∀ node ∈ below ++ above,
            (if node ∈ pendLocks then
                lockPieces tid tsStart tsEnd isRead (heap₁.pub node)
              else [heap₁.pub node]) =
              if node ∈ first :: pendLocks then
                lockPieces tid tsStart tsEnd isRead (heap.pub node)
              else [heap.pub node] := by
          intro node around
          have different : node ≠ first := by
            have nodup₀ := laid.nodup
            rw [List.perm_middle.nodup_iff, List.nodup_cons] at nodup₀
            rintro rfl
            exact nodup₀.1 around
          rw [others node around]
          simp [different]
        have middle : ((low ++ first :: high).flatMap fun node =>
            if node ∈ pendLocks then
              lockPieces tid tsStart tsEnd isRead (heap₁.pub node)
            else [heap₁.pub node]) = (low ++ first :: high).map heap₁.pub := by
          rw [List.map_eq_flatMap]
          exact List.flatMap_congr fun node here => if_neg (outside node here)
        rw [order, List.flatMap_append, List.flatMap_append, middle, pieces,
          List.flatMap_congr (l := below) fun node isBelow => kept node (by simp [isBelow]),
          List.flatMap_congr (l := above) fun node isAbove => kept node (by simp [isAbove]),
          List.flatMap_append, List.flatMap_cons, if_pos List.mem_cons_self,
          List.append_assoc]
      · obtain ⟨different, notLater⟩ := not_or.1 fun either =>
          notPending (List.mem_cons.2 either)
        have around : node ∈ below ++ above := by
          simp only [List.mem_append, List.mem_cons] at inNodes ⊢
          tauto
        obtain ⟨member', same⟩ := untouched node (by
          simp only [List.mem_append] at around ⊢
          tauto) notLater
        exact ⟨member', same.trans (others node around)⟩

end LockNode

/-! ## The search -/

/--
Whether the search of `tryLock` can end at the interval just below the range
and collect it: an interval starts with the range, but it is not on the stack
with which the search begins, and nothing above it refuses the lock.
-/
def KeyInfo.overreaches (info : KeyInfo) (tsStart tsEnd : Nat) (isRead : Bool) : Prop :=
  ∃ locks, find info.heap.fuel info.heap [] info.root tsEnd = .ok locks ∧
    (∀ node ∈ locks, (info.heap.pub node).startTs ≠ tsStart) ∧
    (∀ node ∈ locks, tsStart < (info.heap.pub node).startTs →
      searchVisit isRead (info.heap.pub node) ≠ none) ∧
    ∃ lock ∈ info.timeline, lock.endTs + 1 = tsStart ∧ searchVisit isRead lock = some true

section Search

variable {heap : NodeHeap} {rootPtr last : Address}
  {earlier above locks pendLocks : List Address} {tsStart tsEnd fuel : Nat}
  {isRead : Bool}

/-- The last visit of the search. -/
theorem searchLoop_last (reaches : (heap.pub last).startTs ≤ tsStart) :
    searchLoop heap tsStart isRead (fuel + 2) (last :: locks) pendLocks =
      .ok ((searchVisit isRead (heap.pub last)).map fun pends =>
        if pends then pendLocks ++ [last] else pendLocks) := by
  have notBefore : ¬ tsStart < (heap.pub last).startTs := Nat.not_lt.2 reaches
  cases visit : searchVisit isRead (heap.pub last) with
  | none => simp only [searchLoop, visit, Option.map_none]
  | some pends =>
      simp only [searchLoop, visit, notBefore, if_false, Option.map_some]
      rfl

/-- What the search may have collected from the part that it still has to visit. -/
def Collected (heap : NodeHeap) (tsStart tsEnd : Nat) (isRead : Bool)
    (unvisited pendLocks : List Address) : Option (List Address) → Prop
  | none => True
  | some result =>
      ∃ more, result = pendLocks ++ more ∧ more.Nodup ∧
        ∀ node ∈ more, node ∈ unvisited ∧
          searchVisit isRead (heap.pub node) = some true ∧
          (heap.pub node).startTs ≤ tsEnd ∧ tsStart ≤ (heap.pub node).endTs

theorem collected_last
    {unvisited : List Address}
    (member : last ∈ unvisited)
    (starts : (heap.pub last).startTs ≤ tsEnd)
    (ends : searchVisit isRead (heap.pub last) = some true →
      tsStart ≤ (heap.pub last).endTs) :
    Collected heap tsStart tsEnd isRead unvisited pendLocks
      ((searchVisit isRead (heap.pub last)).map fun pends =>
        if pends then pendLocks ++ [last] else pendLocks) := by
  cases visit : searchVisit isRead (heap.pub last) with
  | none => trivial
  | some pends =>
      cases pends with
      | false => exact ⟨[], by simp⟩
      | true => exact ⟨[last], by simp, by simp, by simp [member, visit, starts, ends visit]⟩

theorem Collected.cons
    {unvisited : List Address} {result : Option (List Address)}
    (visit : searchVisit isRead (heap.pub last) = some true)
    (starts : (heap.pub last).startTs ≤ tsEnd)
    (ends : tsStart ≤ (heap.pub last).endTs)
    (fresh : last ∉ unvisited)
    (collected : Collected heap tsStart tsEnd isRead unvisited (pendLocks ++ [last])
      result) :
    Collected heap tsStart tsEnd isRead (unvisited ++ [last]) pendLocks result := by
  cases result with
  | none => trivial
  | some result =>
      obtain ⟨more, rfl, nodup, meets⟩ := collected
      refine ⟨last :: more, by simp, ?_, ?_⟩
      · exact List.nodup_cons.2 ⟨fun member => fresh (meets last member).1, nodup⟩
      · intro node member
        rcases List.mem_cons.1 member with rfl | later
        · exact ⟨by simp, visit, starts, ends⟩
        · obtain ⟨inRest, rest⟩ := meets node later
          exact ⟨by simp [inRest], rest⟩

theorem Collected.mono
    {unvisited unvisited' : List Address} {result : Option (List Address)}
    (subset : ∀ node ∈ unvisited, node ∈ unvisited')
    (collected : Collected heap tsStart tsEnd isRead unvisited pendLocks result) :
    Collected heap tsStart tsEnd isRead unvisited' pendLocks result := by
  cases result with
  | none => trivial
  | some result =>
      obtain ⟨more, same, nodup, meets⟩ := collected
      exact ⟨more, same, nodup, fun node member =>
        ⟨subset node (meets node member).1, (meets node member).2⟩⟩

/--
The search, while it works down the stack with which it began: what has been
popped starts above the range and did not refuse the lock.
-/
theorem searchLoop_eq (popped pendLocks : List Address)
    (laid : Laid heap rootPtr (earlier ++ last :: above))
    (pending : Pending heap.links (last :: locks) (earlier ++ [last]))
    (positive : 1 ≤ tsStart)
    (starts : (heap.pub last).startTs ≤ tsEnd)
    (near : tsStart ≤ (heap.pub last).endTs + 1)
    (passed : ∀ node ∈ popped, tsStart < (heap.pub node).startTs ∧
      searchVisit isRead (heap.pub node) ≠ none)
    (within : ¬ ((∀ node ∈ popped ++ last :: locks, (heap.pub node).startTs ≠ tsStart) ∧
      (∀ node ∈ popped ++ last :: locks, tsStart < (heap.pub node).startTs →
        searchVisit isRead (heap.pub node) ≠ none) ∧
      ∃ node ∈ earlier ++ last :: above, (heap.pub node).endTs + 1 = tsStart ∧
        searchVisit isRead (heap.pub node) = some true))
    (enough : earlier.length + 1 < fuel) :
    ∃ result,
      searchLoop heap tsStart isRead fuel (last :: locks) pendLocks = .ok result ∧
        Collected heap tsStart tsEnd isRead (earlier ++ [last]) pendLocks result := by
  induction fuel generalizing earlier last above locks pendLocks popped with
  | zero => simp at enough
  | succ fuel ih =>
      obtain ⟨fuel, rfl⟩ : ∃ n, fuel = n + 1 := ⟨fuel - 1, by omega⟩
      have ordered := laid.ordered
      obtain ⟨-, left, -, rest, first, sameStack, -, pendingRest, rfl⟩ := pending.exists_top
      obtain rfl : locks = rest := by simpa using sameStack
      have stackEarlier : ∀ node ∈ locks, node ∈ first ++ inorder left :=
        fun node member => List.mem_append_left _ (pendingRest.mem member)
      generalize first ++ inorder left = earlier at *
      obtain ⟨low, -⟩ := laid.around
        (show (heap.pub last).Covers (heap.pub last).startTs from
          ⟨Nat.le_refl _, ordered.1⟩)
      by_cases reaches : (heap.pub last).startTs ≤ tsStart
      · refine ⟨_, searchLoop_last reaches, collected_last (by simp) starts fun visit => ?_⟩
        by_contra short
        have belowRange : ∀ node ∈ last :: locks, (heap.pub node).startTs < tsStart := by
          intro node member
          rcases List.mem_cons.1 member with rfl | inStack
          · omega
          · have := low node (stackEarlier node inStack)
            omega
        refine within ⟨fun node member => ?_, fun node member after => ?_,
          last, by simp, by omega, visit⟩
        · rcases List.mem_append.1 member with inPopped | inStack
          · exact Nat.ne_of_gt (passed node inPopped).1
          · exact Nat.ne_of_lt (belowRange node inStack)
        · rcases List.mem_append.1 member with inPopped | inStack
          · exact (passed node inPopped).2
          · have := belowRange node inStack
            omega
      · cases visit : searchVisit isRead (heap.pub last) with
        | none => exact ⟨none, by simp only [searchLoop, visit], trivial⟩
        | some pends =>
            have goesOn : tsStart < (heap.pub last).startTs := Nat.not_le.1 reaches
            have fresh := laid.last_not_mem
            obtain ⟨lowPart, -, -⟩ := laid.tiles.around
            obtain ⟨below, hit, between, rfl, covers⟩ :=
              lowPart.exists_cover (tsStart - 1) (Nat.zero_le _) (by omega)
            have laid' : Laid heap rootPtr (below ++ hit :: (between ++ last :: above)) := by
              simpa using laid
            obtain ⟨before, after⟩ := laid'.around
              (show (heap.pub hit).Covers (tsStart - 1) from covers)
            have short := laid.length_lt_fuel
            simp only [List.length_append, List.length_cons] at short enough
            obtain ⟨stack, rest, found, pending', isPrefix, pushed⟩ :=
              find_next pending (by omega) rfl
                before covers (fun node member => after node (by simp [member]))
                (show (below ++ hit :: between).length < heap.fuel by
                  simp only [List.length_append, List.length_cons]
                  omega)
            have step : searchLoop heap tsStart isRead (fuel + 1 + 1) (last :: locks)
                pendLocks =
                searchLoop heap tsStart isRead (fuel + 1) stack
                  (if pends then pendLocks ++ [last] else pendLocks) := by
              rw [searchLoop]
              simp only [visit, goesOn, if_true, uintPred_eq positive, found]
              rfl
            -- The rest of the search, wherever it goes on.
            obtain ⟨result, looped, collected⟩ : ∃ result,
                searchLoop heap tsStart isRead (fuel + 1) stack
                    (if pends then pendLocks ++ [last] else pendLocks) = .ok result ∧
                  Collected heap tsStart tsEnd isRead (below ++ hit :: between)
                    (if pends then pendLocks ++ [last] else pendLocks) result := by
              rcases pushed with rfl | ⟨rfl, inBelow⟩
              · obtain ⟨tail, rfl⟩ := isPrefix
                obtain ⟨earlier, next, split, nextNear⟩ : ∃ earlier next,
                    below ++ hit :: rest = earlier ++ [next] ∧
                      tsStart ≤ (heap.pub next).endTs + 1 := by
                  rcases List.eq_nil_or_concat rest with rfl | ⟨rest, final, rfl⟩
                  · exact ⟨below, hit, rfl, by have := covers.2; omega⟩
                  · have starts' := after final (by simp)
                    have ordered' := laid.end_le (show final ∈ _ by simp)
                    exact ⟨below ++ hit :: rest, final, by simp, by omega⟩
                rw [split] at pending'
                obtain ⟨-, -, -, locks, -, rfl, -, -, -⟩ := pending'.exists_top
                have nodes : below ++ hit :: (rest ++ tail) ++ last :: above =
                    earlier ++ next :: (tail ++ last :: above) := by
                  have := congrArg (· ++ (tail ++ last :: above)) split
                  simpa using this
                rw [nodes] at laid within
                have isNext : next ∈ below ++ hit :: rest := by simp [split]
                have nextStarts : (heap.pub next).startTs ≤ (heap.pub last).startTs :=
                  (low next (by
                    simp only [List.mem_append, List.mem_cons] at isNext ⊢
                    tauto)).1
                obtain ⟨result, looped, collected⟩ :=
                  ih (popped ++ [last]) _ laid pending' (by omega) nextNear
                    (by
                      intro node member
                      rcases List.mem_append.1 member with old | here
                      · exact passed node old
                      · obtain rfl := List.mem_singleton.1 here
                        exact ⟨goesOn, by simp [visit]⟩)
                    (by simpa using within) (by
                      have := congrArg List.length split
                      simp only [List.length_append, List.length_cons, List.length_nil]
                        at this enough
                      omega)
                refine ⟨result, looped, collected.mono fun node member => ?_⟩
                rw [← split] at member
                simp only [List.mem_append, List.mem_cons] at member ⊢
                tauto
              · obtain ⟨-, -, -, locks', -, rfl, -, -, -⟩ := pending'.exists_top
                obtain ⟨fuel, rfl⟩ : ∃ n, fuel = n + 1 := ⟨fuel - 1, by omega⟩
                refine ⟨_, searchLoop_last (by omega), collected_last (by simp) (by omega)
                  fun collects => ?_⟩
                by_contra above'
                refine within ⟨fun node member => ?_, fun node member starts' => ?_,
                  hit, by simp, by omega, collects⟩
                · rcases List.mem_append.1 member with inPopped | inStack
                  · exact Nat.ne_of_gt (passed node inPopped).1
                  · rcases List.mem_cons.1 inStack with rfl | inLocks
                    · exact Nat.ne_of_gt goesOn
                    · have := (before node (inBelow node inLocks)).1
                      omega
                · rcases List.mem_append.1 member with inPopped | inStack
                  · exact (passed node inPopped).2
                  · rcases List.mem_cons.1 inStack with rfl | inLocks
                    · simp [visit]
                    · have := (before node (inBelow node inLocks)).1
                      omega
            refine ⟨result, step.trans looped, ?_⟩
            cases pends with
            | true => exact collected.cons visit starts (by omega) fresh
            | false => exact collected.mono fun node member => List.mem_append_left _ member

end Search

/-! ## The operation -/

/-- What a `tryLock` that succeeds does to the trees, with the intervals that it locked. -/
structure TakesLocks (manager : AVLTreeLockManager) (key tid tsStart tsEnd : Nat)
    (isRead : Bool) (chosen : List Interval) (manager' : AVLTreeLockManager) :
    Prop where
  trees : manager'.Trees
  collected : ∀ lock ∈ chosen, lock ∈ manager.timeline key ∧
    searchVisit isRead lock = some true ∧
    lock.startTs ≤ tsEnd ∧ tsStart ≤ lock.endTs
  timeline : ∀ other, manager'.timeline other =
    if other = key then
      (manager.timeline key).flatMap fun lock =>
        if lock ∈ chosen then lockPieces tid tsStart tsEnd isRead lock else [lock]
    else manager.timeline other
  eventsAt : ∀ other ts, manager'.eventsAt other ts = manager.eventsAt other ts
  record : ∀ other otherKey, manager'.record other otherKey =
    if other = tid ∧ otherKey = key then
      some (widen (manager.record tid key) tsStart tsEnd)
    else manager.record other otherKey
  keyMap : manager'.keyMap key ≠ none

/-- The effect of a `tryLock` that succeeds, with the intervals that it locked. -/
structure Locked (manager : AVLTreeLockManager) (key tid tsStart tsEnd : Nat)
    (isRead : Bool) (chosen : List Interval) (manager' : AVLTreeLockManager) :
    Prop where
  wellFormed : manager'.WellFormed
  collected : ∀ lock ∈ chosen, lock ∈ manager.timeline key ∧
    searchVisit isRead lock = some true ∧
    lock.startTs ≤ tsEnd ∧ tsStart ≤ lock.endTs
  timeline : ∀ other, manager'.timeline other =
    if other = key then
      (manager.timeline key).flatMap fun lock =>
        if lock ∈ chosen then lockPieces tid tsStart tsEnd isRead lock else [lock]
    else manager.timeline other
  eventsAt : ∀ other ts, manager'.eventsAt other ts = manager.eventsAt other ts
  record : ∀ other otherKey, manager'.record other otherKey =
    if other = tid ∧ otherKey = key then
      some (widen (manager.record tid key) tsStart tsEnd)
    else manager.record other otherKey
  keyMap : manager'.keyMap key ≠ none

/-- The nodes of a tree have different intervals. -/
theorem Laid.pub_injective
    {heap : NodeHeap} {rootPtr node other : Address} {nodes : List Address}
    (laid : Laid heap rootPtr nodes)
    (member : node ∈ nodes) (member' : other ∈ nodes)
    (same : heap.pub node = heap.pub other) : node = other := by
  have ordered := laid.end_le member
  refine laid.tiles.cover_unique (heap.pub node).startTs member member'
    ⟨Nat.le_refl _, ordered.1⟩ ?_
  rw [← same]
  exact ⟨Nat.le_refl _, ordered.1⟩

/-- The second part of `tryLock`, once the search has collected the nodes. -/
theorem takesLocks_collected
    {manager manager₁ : AVLTreeLockManager} {key tsStart tsEnd : Nat}
    {info : KeyInfo} {pendLocks : List Address}
    (same : SameView manager manager₁)
    (present : manager₁.keyMap key = some info) (trees : manager₁.Trees)
    (positive : 1 ≤ tsStart) (ordered : tsStart ≤ tsEnd)
    (nodup : pendLocks.Nodup) (tid : Nat) (isRead : Bool)
    (meets : ∀ node ∈ pendLocks, node ∈ info.nodes ∧
      searchVisit isRead (info.heap.pub node) = some true ∧
      (info.heap.pub node).startTs ≤ tsEnd ∧ tsStart ≤ (info.heap.pub node).endTs) :
    ∃ heap rootPtr,
      lockNodes tid tsStart tsEnd isRead pendLocks info.heap info.root =
          .ok (heap, rootPtr) ∧
        TakesLocks manager key tid tsStart tsEnd isRead (pendLocks.map info.heap.pub)
          ((manager₁.addTransactionLock tid key tsStart tsEnd).setKeyInfo key
            { info with root := rootPtr, heap := heap }) := by
  have laid : Laid info.heap info.root info.nodes := trees key info present
  obtain ⟨heap, rootPtr, nodes, locked, laid', order, -⟩ :=
    lockNodes_eq tid isRead laid positive ordered nodup
      fun node member => ⟨(meets node member).1, (meets node member).2.2⟩
  have oldTimeline : manager.timeline key = info.nodes.map info.heap.pub := by
    rw [← same.timeline, timeline_eq present, KeyInfo.timeline]
  have trees₂ : (manager₁.addTransactionLock tid key tsStart tsEnd).Trees := trees
  obtain ⟨wellFormed', nodes'⟩ := Laid.wellFormed
    { info with root := rootPtr, heap := heap } laid'
  refine ⟨heap, rootPtr, locked,
    { trees := trees₂.setKeyInfo wellFormed'
      collected := fun lock member => ?_
      timeline := fun other => ?_
      eventsAt := fun other ts => ?_
      record := fun other otherKey => ?_
      keyMap := by simp [setKeyInfo] }⟩
  · obtain ⟨node, collected, rfl⟩ := List.mem_map.1 member
    obtain ⟨inNodes, visit, range⟩ := meets node collected
    exact ⟨oldTimeline ▸ List.mem_map_of_mem inNodes, visit, range⟩
  · rw [timeline_setKeyInfo]
    split
    · rw [KeyInfo.timeline, nodes', oldTimeline, order, List.flatMap_map]
      refine List.flatMap_congr fun node member => ?_
      have iff : info.heap.pub node ∈ pendLocks.map info.heap.pub ↔ node ∈ pendLocks := by
        refine ⟨fun image => ?_, List.mem_map_of_mem⟩
        obtain ⟨other, collected, samePub⟩ := List.mem_map.1 image
        have := laid.pub_injective (meets other collected).1 member samePub
        exact this ▸ collected
      simp only [iff]
    · exact same.timeline other
  · rw [eventsAt_setKeyInfo]
    split
    · next sameKey => rw [sameKey, ← eventsAt_eq present, same.eventsAt]
    · exact same.eventsAt other ts
  · rw [record_setKeyInfo, record_addTransactionLock, same.record, same.record]

/-- Locks on a range of positive 64-bit timestamps leave records that can be walked. -/
theorem TakesLocks.locked
    {manager manager' : AVLTreeLockManager} {key tid tsStart tsEnd : Nat} {isRead : Bool}
    {chosen : List Interval}
    (takes : TakesLocks manager key tid tsStart tsEnd isRead chosen manager')
    (wellFormed : manager.WellFormed) (positive : 1 ≤ tsStart) (bound : tsEnd ≤ uintMax) :
    Locked manager key tid tsStart tsEnd isRead chosen manager' where
  wellFormed := by
    refine ⟨takes.trees, fun other otherKey low high recorded => ?_⟩
    rw [takes.record] at recorded
    split at recorded
    · exact widen_bounds (wellFormed.records tid key) positive bound
        (Option.some.inj recorded)
    · exact wellFormed.records other otherKey low high recorded
  collected := takes.collected
  timeline := takes.timeline
  eventsAt := takes.eventsAt
  record := takes.record
  keyMap := takes.keyMap

theorem lock_collected
    {manager manager₁ : AVLTreeLockManager} {key tsStart tsEnd : Nat}
    {info : KeyInfo} {pendLocks : List Address}
    (wellFormed : manager.WellFormed) (same : SameView manager manager₁)
    (present : manager₁.keyMap key = some info) (trees : manager₁.Trees)
    (positive : 1 ≤ tsStart) (ordered : tsStart ≤ tsEnd) (bound : tsEnd ≤ uintMax)
    (nodup : pendLocks.Nodup) (tid : Nat) (isRead : Bool)
    (meets : ∀ node ∈ pendLocks, node ∈ info.nodes ∧
      searchVisit isRead (info.heap.pub node) = some true ∧
      (info.heap.pub node).startTs ≤ tsEnd ∧ tsStart ≤ (info.heap.pub node).endTs) :
    ∃ heap rootPtr,
      lockNodes tid tsStart tsEnd isRead pendLocks info.heap info.root =
          .ok (heap, rootPtr) ∧
        Locked manager key tid tsStart tsEnd isRead (pendLocks.map info.heap.pub)
          ((manager₁.addTransactionLock tid key tsStart tsEnd).setKeyInfo key
            { info with root := rootPtr, heap := heap }) := by
  obtain ⟨heap, rootPtr, locked, takes⟩ :=
    takesLocks_collected same present trees positive ordered nodup tid isRead meets
  exact ⟨heap, rootPtr, locked, takes.locked wellFormed positive bound⟩

/-- Whether the search of a call can collect the interval just below its range. -/
def AVLTreeLockManager.overreaches (manager : AVLTreeLockManager)
    (key tsStart tsEnd : Nat) (isRead : Bool) : Prop :=
  ∃ info, manager.keyMap key = some info ∧ info.overreaches tsStart tsEnd isRead

/-- A key that is still to be created has nothing below a range to collect. -/
theorem not_overreaches_initialTimeline
    {info : KeyInfo} {tsStart tsEnd : Nat} {isRead : Bool}
    (untouched : info.timeline = initialTimeline)
    (ordered : tsStart ≤ tsEnd) (bound : tsEnd < uintMax) :
    ¬ info.overreaches tsStart tsEnd isRead := by
  rintro ⟨-, -, -, -, lock, member, adjacent, visit⟩
  rw [untouched] at member
  simp only [initialTimeline, List.mem_cons, List.not_mem_nil, or_false] at member
  rcases member with rfl | rfl
  · simp [searchVisit, originInterval] at visit
  · simp only [futureInterval, initial] at adjacent
    omega

/-- `tryLock` returns unless it overreaches, and this is what it has done. -/
theorem tryLock_eq
    {manager : AVLTreeLockManager} {key tsStart tsEnd : Nat} {isRead : Bool}
    (wellFormed : manager.WellFormed)
    (positive : 1 ≤ tsStart) (ordered : tsStart ≤ tsEnd) (bound : tsEnd < uintMax)
    (within : ¬ manager.overreaches key tsStart tsEnd isRead) (tid : Nat) :
    ∃ manager' res,
      manager.tryLock key tid tsStart tsEnd isRead = .ok (manager', res) ∧
        ((res = false ∧ manager'.WellFormed ∧ SameView manager manager') ∨
          (res = true ∧ ∃ chosen,
            Locked manager key tid tsStart tsEnd isRead chosen manager')) := by
  obtain ⟨manager₁, info, created, present, wellFormed₁, same, origin⟩ :=
    createKeyInfo_eq wellFormed key
  have laid : Laid info.heap info.root info.nodes := wellFormed₁.keys key info present
  have within' : ¬ info.overreaches tsStart tsEnd isRead := by
    rcases origin with known | unknown
    · exact fun reaches => within ⟨info, known, reaches⟩
    · refine not_overreaches_initialTimeline ?_ ordered bound
      rw [← timeline_eq present, same.timeline, timeline, unknown]
  obtain ⟨earlier, hit, later, order, covers⟩ := laid.exists_cover (Nat.le_of_lt bound)
  rw [order] at laid
  obtain ⟨locks, found, pending⟩ := laid.find_root covers
  obtain ⟨-, -, -, rest, -, rfl, -, -, -⟩ := pending.exists_top
  have short := laid.length_lt_fuel
  simp only [List.length_append, List.length_cons] at short
  obtain ⟨result, searched, collected⟩ :=
    searchLoop_eq [] [] laid pending positive covers.1
      (by have := covers.2; omega) (by simp)
      (by
        rintro ⟨notStart, refusesNone, node, member, adjacent, visit⟩
        refine within' ⟨hit :: rest, found, by simpa using notStart,
          by simpa using refusesNone, info.heap.pub node, ?_, adjacent, visit⟩
        rw [KeyInfo.timeline, order]
        exact List.mem_map_of_mem member)
      (show earlier.length + 1 < info.heap.fuel by omega)
  cases result with
  | none =>
      refine ⟨manager₁, false, ?_, .inl ⟨rfl, wellFormed₁, same⟩⟩
      unfold tryLock
      rw [created]
      simp only [bind, Except.bind, present, deref, found, searched]
      rfl
  | some pendLocks =>
      obtain ⟨more, rfl, nodup, meets⟩ := collected
      obtain ⟨heap, rootPtr, locked, effect⟩ :=
        lock_collected wellFormed same present wellFormed₁.trees positive ordered
          (Nat.le_of_lt bound) nodup tid isRead
          fun node member => by
            obtain ⟨inPart, rest⟩ := meets node member
            refine ⟨?_, rest⟩
            rw [order]
            simp only [List.mem_append, List.mem_cons, List.not_mem_nil, or_false]
              at inPart ⊢
            tauto
      refine ⟨_, true, ?_, .inr ⟨rfl, _, effect⟩⟩
      unfold tryLock
      rw [created]
      simp only [bind, Except.bind, present, deref, found, searched, locked]
      rfl

/-- `tryLock` of a single timestamp depends on the one interval that contains it. -/
theorem tryLock_point_trees
    {manager : AVLTreeLockManager} {ts : Nat}
    (trees : manager.Trees) (key : Nat) (bound : ts ≤ uintMax) (tid : Nat)
    (isRead : Bool) :
    ∃ manager' lock,
      lock ∈ manager.timeline key ∧ lock.Covers ts ∧
        ((searchVisit isRead lock = none ∧
            manager.tryLock key tid ts ts isRead = .ok (manager', false) ∧
            manager'.Trees ∧ SameView manager manager') ∨
          ∃ pends, searchVisit isRead lock = some pends ∧ 1 ≤ ts ∧
            manager.tryLock key tid ts ts isRead = .ok (manager', true) ∧
            TakesLocks manager key tid ts ts isRead (if pends then [lock] else [])
              manager') := by
  obtain ⟨manager₁, info, created, present, trees₁, same, -⟩ :=
    createKeyInfo_trees trees key
  have laid : Laid info.heap info.root info.nodes := trees₁ key info present
  obtain ⟨earlier, hit, later, order, covers⟩ := laid.exists_cover bound
  have isNode : hit ∈ info.nodes := by simp [order]
  rw [order] at laid
  obtain ⟨locks, found, pending⟩ := laid.find_root covers
  obtain ⟨-, -, -, rest, -, rfl, -, -, -⟩ := pending.exists_top
  have short := laid.length_lt_fuel
  simp only [List.length_append, List.length_cons] at short
  obtain ⟨fuel, fuelEq⟩ : ∃ n, info.heap.fuel = n + 2 := ⟨info.heap.fuel - 2, by omega⟩
  have searched : searchLoop info.heap ts isRead (fuel + 2) (hit :: rest) [] = _ :=
    searchLoop_last covers.1
  rw [← fuelEq] at searched
  have member : info.heap.pub hit ∈ manager.timeline key := by
    rw [← same.timeline, timeline_eq present]
    exact List.mem_map_of_mem isNode
  cases visit : searchVisit isRead (info.heap.pub hit) with
  | none =>
      rw [visit, Option.map_none] at searched
      refine ⟨manager₁, info.heap.pub hit, member, covers,
        .inl ⟨visit, ?_, trees₁, same⟩⟩
      unfold tryLock
      rw [created]
      simp only [bind, Except.bind, present, deref, found, searched]
      rfl
  | some pends =>
      rw [visit, Option.map_some] at searched
      have positive : 1 ≤ ts := by
        have starts := covers.1
        by_contra zero
        have isOrigin := laid.eq_origin (show hit ∈ _ by simp) (by omega)
        rw [isOrigin] at visit
        simp [searchVisit, originInterval] at visit
      obtain ⟨heap, rootPtr, locked, effect⟩ :=
        takesLocks_collected same present trees₁ positive (Nat.le_refl ts)
          (show (if pends then [hit] else []).Nodup by split <;> simp) tid isRead
          fun node inCollected => by
            cases pends with
            | false => simp at inCollected
            | true =>
                obtain rfl : node = hit := by simpa using inCollected
                exact ⟨isNode, visit, covers⟩
      refine ⟨(manager₁.addTransactionLock tid key ts ts).setKeyInfo key
          { info with root := rootPtr, heap := heap }, info.heap.pub hit, member, covers,
        .inr ⟨pends, visit, positive, ?_, ?_⟩⟩
      · unfold tryLock
        rw [created]
        simp only [bind, Except.bind, present, deref, found, searched, List.nil_append,
          locked]
        rfl
      · cases pends <;> exact effect

theorem tryLock_point
    {manager : AVLTreeLockManager} {ts : Nat}
    (wellFormed : manager.WellFormed) (key : Nat) (bound : ts < uintMax) (tid : Nat)
    (isRead : Bool) :
    ∃ manager' lock,
      lock ∈ manager.timeline key ∧ lock.Covers ts ∧
        ((searchVisit isRead lock = none ∧
            manager.tryLock key tid ts ts isRead = .ok (manager', false) ∧
            manager'.WellFormed ∧ SameView manager manager') ∨
          ∃ pends, searchVisit isRead lock = some pends ∧
            manager.tryLock key tid ts ts isRead = .ok (manager', true) ∧
            Locked manager key tid ts ts isRead (if pends then [lock] else [])
              manager') := by
  obtain ⟨manager', lock, member, covers,
      ⟨visit, returned, trees, same⟩ | ⟨pends, visit, positive, returned, takes⟩⟩ :=
    tryLock_point_trees wellFormed.trees key (Nat.le_of_lt bound) tid isRead
  · exact ⟨manager', lock, member, covers,
      .inl ⟨visit, returned, same.wellFormed wellFormed trees, same⟩⟩
  · exact ⟨manager', lock, member, covers, .inr ⟨pends, visit, returned,
      takes.locked wellFormed positive (Nat.le_of_lt bound)⟩⟩

end Mvtx.Lock
