import Mvtx.Lib.Serializable

/-!
# Who stands in the way of a writer

A point is claimed for a reader only by a transaction that guards it, and a
transaction guards only points before its start.  So a writer whose start is not
free has been overtaken: a transaction that starts later guards the point.
-/

namespace Mvtx.Lib.Multiversion

open Serial

variable {Txn Key Time Value : Type*} [LinearOrder Time]

/-- Some transaction guards a point, which lies before its start. -/
def State.GuardedBy (state : State Txn Key Time Value) (txn : Txn) (key : Key) (time : Time) :
    Prop :=
  ∃ record, state.records txn = some record ∧ time ∈ record.guarded key ∧ time < record.start

/-- Every claim of a reader is that of a transaction. -/
structure Attributed (state : State Txn Key Time Value) : Prop where
  reading : ∀ key time readers, state.claims key time = .reading readers →
    readers.Nonempty ∧ ∀ txn ∈ readers, state.GuardedBy txn key time
  read : ∀ key time, state.claims key time = .read → ∃ txn, state.GuardedBy txn key time

variable {state state' : State Txn Key Time Value} {txn : Txn}
  {record record' : Record Key Time Value} {key : Key} {time : Time}

/-- A record that guards no less keeps what is guarded. -/
theorem State.GuardedBy.put [DecidableEq Txn] {other : Txn}
    (guarded : state.GuardedBy other key time)
    (present : state.records txn = some record) (start : record'.start = record.start)
    (more : ∀ key, record.guarded key ⊆ record'.guarded key)
    (records : state'.records = state.records) :
    (state'.put txn record').GuardedBy other key time := by
  obtain ⟨current, there, member, earlier⟩ := guarded
  by_cases same : other = txn
  · subst same
    obtain rfl := Option.some.inj (present.symm.trans there)
    exact ⟨record', State.put_self, more key member, start ▸ earlier⟩
  · exact ⟨current, State.put_of_ne (records ▸ there) same, member, earlier⟩

namespace Attributed

theorem of_guarded (attributed : Attributed state)
    (guarded : ∀ txn key time, state.GuardedBy txn key time → state'.GuardedBy txn key time)
    (claims : state'.claims = state.claims) : Attributed state' where
  reading := fun key time readers claimed =>
    (attributed.reading key time readers (claims ▸ claimed)).imp_right fun all reader member =>
      guarded reader key time (all reader member)
  read := fun key time claimed =>
    (attributed.read key time (claims ▸ claimed)).imp fun reader => guarded reader key time

theorem initial [OrderBot Time] (contents : Key → Value) :
    Attributed (State.initial contents : State Txn Key Time Value) where
  reading := by
    intro key time readers claimed
    by_cases origin : time = ⊥ <;> simp [State.initial, origin] at claimed
  read := by
    intro key time claimed
    by_cases origin : time = ⊥ <;> simp [State.initial, origin] at claimed

theorem lock [DecidableEq Key] (attributed : Attributed state)
    (free : state.claims key record.start = .free) :
    Attributed (state.lock txn key record.start) := by
  have old : ∀ other time claim, (∀ writer, claim ≠ .writing writer) →
      (state.lock txn key record.start).claims other time = claim →
      state.claims other time = claim := by
    intro other time claim reads claimed
    simp only [State.lock, changeAt] at claimed
    split at claimed
    · next here =>
        obtain ⟨rfl, rfl⟩ := here
        rw [free] at claimed
        exact absurd claimed.symm (reads txn)
    · exact claimed
  exact
    { reading := fun other time readers claimed =>
        attributed.reading other time readers (old other time _ (by simp) claimed)
      read := fun other time claimed =>
        attributed.read other time (old other time _ (by simp) claimed) }

variable [DecidableEq Txn]

/-- A transaction goes on, and the claims stay as they are. -/
theorem put (attributed : Attributed state) (present : state.records txn = some record)
    (start : record'.start = record.start) (guarded : record'.guarded = record.guarded) :
    Attributed (state.put txn record') :=
  attributed.of_guarded
    (fun _ _ _ held => held.put present start (fun _ => (congrFun guarded _).superset) rfl) rfl

theorem drop (attributed : Attributed state) (present : state.records txn = some record) :
    Attributed (state.drop txn record) := by
  have kept : ∀ reader key time, state.GuardedBy reader key time →
      (state.drop txn record).GuardedBy reader key time :=
    fun reader key time held => held.put present rfl (fun _ => subset_rfl) rfl
  refine ⟨fun key time readers claimed => ?_, fun key time claimed => ?_⟩
  · replace claimed : (state.claims key time).release txn = .reading readers := claimed
    cases old : state.claims key time with
    | reading readers' =>
        have all := (attributed.reading key time readers' old).2
        by_cases holds : txn ∈ readers'
        · by_cases last : readers'.erase txn = ∅
          · simp [old, Claim.release, holds, last] at claimed
          · obtain rfl : readers'.erase txn = readers := by
              simpa [old, Claim.release, holds, last] using claimed
            exact ⟨Finset.nonempty_iff_ne_empty.2 last, fun reader member =>
              kept reader key time (all reader (Finset.mem_of_mem_erase member))⟩
        · obtain rfl : readers' = readers := by simpa [old, Claim.release, holds] using claimed
          exact ⟨(attributed.reading key time readers' old).1, fun reader member =>
            kept reader key time (all reader member)⟩
    | writing writer => by_cases same : writer = txn <;> simp [old, Claim.release, same] at claimed
    | free | read | written => simp [old, Claim.release] at claimed
  · replace claimed : (state.claims key time).release txn = .read := claimed
    have old : state.claims key time = .read := by
      cases old : state.claims key time with
      | reading readers =>
          by_cases holds : txn ∈ readers <;> by_cases last : readers.erase txn = ∅ <;>
            simp_all [Claim.release]
      | writing writer => by_cases same : writer = txn <;> simp_all [Claim.release]
      | free | read | written => simp_all [Claim.release]
    exact (attributed.read key time old).imp fun reader => kept reader key time

variable [DecidableEq Key]

theorem install (attributed : Attributed state) (present : state.records txn = some record) :
    Attributed (state.install txn record) := by
  have kept : ∀ reader key time, state.GuardedBy reader key time →
      (state.install txn record).GuardedBy reader key time :=
    fun reader key time held => held.put present rfl (fun _ => subset_rfl) rfl
  refine ⟨fun key time readers claimed => ?_, fun key time claimed => ?_⟩
  · replace claimed : (state.claims key time).freeze txn = .reading readers := claimed
    have old : state.claims key time = .reading readers := by
      cases old : state.claims key time with
      | reading readers' =>
          by_cases holds : txn ∈ readers' <;> simp_all [Claim.freeze]
      | writing writer => by_cases same : writer = txn <;> simp_all [Claim.freeze]
      | free | read | written => simp [old, Claim.freeze] at claimed
    exact (attributed.reading key time readers old).imp_right fun all reader member =>
      kept reader key time (all reader member)
  · replace claimed : (state.claims key time).freeze txn = .read := claimed
    cases old : state.claims key time with
    | reading readers =>
        have holds : txn ∈ readers := by
          by_contra absent
          simp [old, Claim.freeze, absent] at claimed
        exact ⟨txn, kept txn key time ((attributed.reading key time readers old).2 txn holds)⟩
    | read => exact (attributed.read key time old).imp fun reader => kept reader key time
    | writing writer => by_cases same : writer = txn <;> simp [old, Claim.freeze, same] at claimed
    | free | written => simp [old, Claim.freeze] at claimed

theorem scan (attributed : Attributed state) (present : state.records txn = some record)
    {range : Set Time} [DecidablePred (· ∈ range)]
    (before : ∀ time ∈ range, time < record.start) :
    Attributed (state.scan txn record key range) := by
  have kept : ∀ reader other time, state.GuardedBy reader other time →
      (state.scan txn record key range).GuardedBy reader other time := by
    intro reader other time held
    refine held.put present rfl (fun another => ?_) rfl
    by_cases same : another = key
    · subst same
      simp
    · simp [same]
  have own : ∀ time ∈ range, (state.scan txn record key range).GuardedBy txn key time :=
    fun time member => ⟨_, State.put_self, by simp [member], before time member⟩
  refine ⟨fun other time readers claimed => ?_, fun other time claimed => ?_⟩
  · simp only [State.scan, State.put_claims, changeAt] at claimed
    split at claimed
    · next here =>
        obtain ⟨rfl, member⟩ := here
        -- The reader is new, and joins those that are there.
        cases old : state.claims other time with
        | free =>
            obtain rfl := Claim.reading.inj ((congrArg (Claim.share txn) old).symm.trans claimed)
            exact ⟨⟨txn, by simp⟩, fun reader is => by
              obtain rfl := Finset.mem_singleton.1 is
              exact own time member⟩
        | reading readers' =>
            obtain rfl := Claim.reading.inj ((congrArg (Claim.share txn) old).symm.trans claimed)
            refine ⟨⟨txn, by simp⟩, fun reader is => ?_⟩
            rcases Finset.mem_insert.1 is with rfl | is
            · exact own time member
            · exact kept _ _ _ ((attributed.reading other time readers' old).2 reader is)
        | writing writer | read | written => simp [old, Claim.share] at claimed
    · obtain ⟨some', all⟩ := attributed.reading other time readers claimed
      exact ⟨some', fun reader is => kept _ _ _ (all reader is)⟩
  · have old : state.claims other time = .read := by
      simp only [State.scan, State.put_claims, changeAt] at claimed
      split at claimed
      · cases old : state.claims other time <;> simp_all [Claim.share]
      · exact claimed
    exact (attributed.read other time old).imp fun reader => kept reader other time

variable [OrderBot Time]

/-- Every step keeps it. -/
theorem step (attributed : Attributed state) (stepped : Step state state') :
    Attributed state' := by
  cases stepped with
  | begin new =>
      refine attributed.of_guarded (fun reader key time held => ?_) rfl
      obtain ⟨record, there, rest⟩ := held
      refine ⟨record, State.put_of_ne there ?_, rest⟩
      rintro rfl
      simp [new] at there
  | write present | readOwn present | answer present => exact attributed.put present rfl rfl
  | scan present _ before => exact attributed.scan present before
  | lock _ _ _ free => exact attributed.lock free
  | decide present => exact attributed.put present rfl rfl
  | install present => exact attributed.install present
  | drop present => exact attributed.drop present

theorem of_steps {contents : Key → Value}
    (steps : Relation.ReflTransGen Step (State.initial contents) state) : Attributed state := by
  induction steps with
  | refl => exact .initial contents
  | tail _ stepped ih => exact ih.step stepped

omit [DecidableEq Txn] in
/--
Where an active writer does not find its start free, and nobody else has the
same start and it has not claimed the point itself, a transaction with a later
start guards the point.
-/
theorem exists_guardedBy {contents : Key → Value} (attributed : Attributed state)
    (sound : Sound contents state) (present : state.records txn = some record)
    (active : record.phase = .active)
    (distinct : ∀ other record', state.records other = some record' →
      record'.start = record.start → other = txn)
    (taken : state.claims key record.start ≠ .free)
    (others : state.claims key record.start ≠ .writing txn) :
    ∃ other, state.GuardedBy other key record.start := by
  cases claim : state.claims key record.start with
  | free => exact absurd claim taken
  | reading readers =>
      obtain ⟨⟨reader, member⟩, all⟩ := attributed.reading key record.start readers claim
      exact ⟨reader, all reader member⟩
  | read => exact attributed.read key record.start claim
  | writing writer =>
      obtain ⟨record', there, same, -⟩ := sound.writing key record.start writer claim
      obtain rfl := distinct writer record' there same
      exact absurd claim others
  | written =>
      rcases sound.written key record.start claim with
        origin | ⟨writer, record', there, installed, same, -⟩
      · exact absurd origin (sound.fits txn record present).later.ne'
      · obtain rfl := distinct writer record' there same
        obtain rfl := Option.some.inj (present.symm.trans there)
        exact absurd (active.symm.trans installed) (by simp)

end Attributed

end Mvtx.Lib.Multiversion
