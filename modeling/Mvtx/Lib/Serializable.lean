import Mvtx.Lib.Multiversion

/-!
# Decided transactions are serializable

The invariant of the protocol says what the claims are worth: a point that a
reader guards is never written, a decided writer has its start, and a read has
returned the version from which on everything up to the start of its reader is
guarded.  Every step keeps it.  In every state that keeps it the logs of the
decided transactions, put one after another in the order of the starts, are
legal.
-/

namespace Mvtx.Lib.Multiversion

open Serial

variable {Txn Key Time Value : Type*}

/-! ## What a transaction can rely on -/

/-- What one state gives a transaction, another gives it as well. -/
structure Keeps (state state' : State Txn Key Time Value) (txn : Txn) : Prop where
  writing : ∀ key time, state.claims key time = .writing txn → state'.claims key time = .writing txn
  written : ∀ key time value, state.claims key time = .written →
    state.versions key time = some value →
    state'.claims key time = .written ∧ state'.versions key time = some value
  guards : ∀ key time, (state.claims key time).Guards txn → (state'.claims key time).Guards txn

/-- Claims and versions do not depend on the records. -/
theorem Keeps.of_eq {state state' : State Txn Key Time Value} {txn : Txn}
    (claims : state'.claims = state.claims) (versions : state'.versions = state.versions) :
    Keeps state state' txn where
  writing := fun _ _ same => by rw [claims, same]
  written := fun _ _ _ written version => by rw [claims, versions]; exact ⟨written, version⟩
  guards := fun _ _ guards => by rwa [claims]

variable [LinearOrder Time] [DecidableEq Key]

/-- A read of a record returns what it has written before, or a version that it guards. -/
def Record.Answers (record : Record Key Time Value) (state : State Txn Key Time Value)
    (before : List (Entry Key Value)) (key : Key) (value : Value) : Prop :=
  lastWritten before key = some value ∨
    lastWritten before key = none ∧ ∃ time < record.start,
      state.claims key time = .written ∧ state.versions key time = some value ∧
        ∀ between, time < between → between < record.start → between ∈ record.guarded key

theorem Record.Answers.mono {state state' : State Txn Key Time Value}
    {record record' : Record Key Time Value} {before : List (Entry Key Value)} {key : Key}
    {value : Value} (answers : record.Answers state before key value)
    (written : ∀ time, state.claims key time = .written → state.versions key time = some value →
      state'.claims key time = .written ∧ state'.versions key time = some value)
    (start : record'.start = record.start) (more : record.guarded key ⊆ record'.guarded key) :
    record'.Answers state' before key value := by
  refine answers.imp_right fun rest => rest.imp_right fun found => ?_
  obtain ⟨time, earlier, claimed, version, guarded⟩ := found
  obtain ⟨claimed', version'⟩ := written time claimed version
  exact ⟨time, start ▸ earlier, claimed', version', fun between after until' =>
    more (guarded between after (start ▸ until'))⟩

variable [OrderBot Time]

/-- The claims and the versions are those of a transaction. -/
structure Record.Fits (record : Record Key Time Value) (state : State Txn Key Time Value)
    (txn : Txn) : Prop where
  later : ⊥ < record.start
  decided : record.phase = .decided → ∀ key, lastWritten record.log key ≠ none →
    state.claims key record.start = .writing txn
  installed : record.phase = .installed → ∀ key value, lastWritten record.log key = some value →
    state.claims key record.start = .written ∧ state.versions key record.start = some value
  guarded : record.phase ≠ .dropped → ∀ key, ∀ time ∈ record.guarded key,
    time < record.start ∧ (state.claims key time).Guards txn
  answered : record.phase ≠ .dropped → ∀ before key value after,
    record.log = before ++ .read key value :: after → record.Answers state before key value

/-- The invariant of the protocol. -/
structure Sound (contents : Key → Value) (state : State Txn Key Time Value) : Prop where
  fits : ∀ txn record, state.records txn = some record → record.Fits state txn
  base : ∀ key, state.claims key ⊥ = .written ∧ state.versions key ⊥ = some (contents key)
  writing : ∀ key time txn, state.claims key time = .writing txn →
    ∃ record, state.records txn = some record ∧ record.start = time ∧
      lastWritten record.log key ≠ none ∧ (record.phase = .active ∨ record.phase = .decided)
  written : ∀ key time, state.claims key time = .written → time = ⊥ ∨
    ∃ txn record, state.records txn = some record ∧ record.phase = .installed ∧
      record.start = time ∧ lastWritten record.log key ≠ none
  versions : ∀ key time, state.versions key time ≠ none → state.claims key time = .written
  /-- No two transactions install the same version. -/
  single : ∀ txn txn' record record' key, state.records txn = some record →
    state.records txn' = some record' → record.phase = .installed → record'.phase = .installed →
    record.start = record'.start → lastWritten record.log key ≠ none →
    lastWritten record'.log key ≠ none → txn = txn'

variable {state state' : State Txn Key Time Value} {txn other : Txn}
  {record record' : Record Key Time Value} {contents : Key → Value} {key : Key} {time : Time}

namespace Record.Fits

theorem keeps (fits : record.Fits state txn) (keeps : Keeps state state' txn) :
    record.Fits state' txn where
  later := fits.later
  decided := fun phase key wrote => keeps.writing key _ (fits.decided phase key wrote)
  installed := fun phase key value wrote =>
    keeps.written key _ value (fits.installed phase key value wrote).1
      (fits.installed phase key value wrote).2
  guarded := fun phase key time member =>
    (fits.guarded phase key time member).imp_right (keeps.guards key time)
  answered := fun phase before key value after whole =>
    (fits.answered phase before key value after whole).mono
      (fun time => keeps.written key time value) rfl subset_rfl

/-- An active transaction does one thing more. -/
theorem append (fits : record.Fits state txn) (active : record.phase = .active)
    {entry : Entry Key Value}
    (answers : ∀ key value, entry = .read key value →
      record.Answers state record.log key value) :
    (record.append entry).Fits state txn where
  later := fits.later
  decided := fun phase => by simp [Record.append, active] at phase
  installed := fun phase => by simp [Record.append, active] at phase
  guarded := fits.guarded
  answered := by
    intro phase before key value after whole
    rcases split_of_append whole with ⟨rfl, rfl⟩ | ⟨rest, old⟩
    · exact answers key value rfl
    · exact fits.answered phase before key value rest old

/-- Where a writer has its start, nobody guards the point. -/
theorem not_guards (fits : record.Fits state txn)
    (phase : record.phase = .decided ∨ record.phase = .installed)
    (wrote : lastWritten record.log key ≠ none) :
    ¬ (state.claims key record.start).Guards other := by
  rcases phase with decided | installed
  · rw [fits.decided decided key wrote]
    exact id
  · obtain ⟨value, written⟩ := Option.ne_none_iff_exists'.1 wrote
    rw [(fits.installed installed key value written).1]
    exact id

end Record.Fits

/-- A transaction has all its claims, or its versions are installed. -/
def Record.Decided (record : Record Key Time Value) : Prop :=
  record.phase = .decided ∨ record.phase = .installed

/-- Between the version that a decided transaction reads and its start nobody writes. -/
theorem Sound.silent (sound : Sound contents state) (present : state.records txn = some record)
    (live : record.phase ≠ .dropped)
    (guarded : ∀ between, time < between → between < record.start → between ∈ record.guarded key)
    (there : state.records other = some record') (decided : record'.Decided)
    (after : time < record'.start) (before : record'.start < record.start) :
    lastWritten record'.log key = none := by
  by_contra wrote
  exact (sound.fits other record' there).not_guards decided wrote
    ((sound.fits txn record present).guarded live key _ (guarded _ after before)).2

namespace Sound

theorem initial (contents : Key → Value) :
    Sound contents (State.initial contents : State Txn Key Time Value) where
  fits := by simp [State.initial]
  base := by simp [State.initial]
  writing := by
    intro key time txn claimed
    by_cases origin : time = ⊥ <;> simp [State.initial, origin] at claimed
  written := by
    intro key time claimed
    by_cases origin : time = ⊥
    · exact .inl origin
    · simp [State.initial, origin] at claimed
  versions := by
    intro key time some'
    by_cases origin : time = ⊥
    · simp [State.initial, origin]
    · simp [State.initial, origin] at some'
  single := by simp [State.initial]

variable [DecidableEq Txn]

/-- A transaction goes on, and the others have what they had. -/
theorem put (sound : Sound contents state) (present : state.records txn = some record)
    (records : state'.records = state.records)
    (start : record'.start = record.start)
    (wrote : ∀ key, lastWritten record.log key ≠ none → lastWritten record'.log key ≠ none)
    (keeps : ∀ other, other ≠ txn → Keeps state state' other)
    (fits : record'.Fits state' txn)
    (base : ∀ key, state'.claims key ⊥ = .written ∧ state'.versions key ⊥ = some (contents key))
    (writing : ∀ key time writer, state'.claims key time = .writing writer →
      state.claims key time = .writing writer ∧
          (writer = txn → record'.phase = .active ∨ record'.phase = .decided) ∨
        writer = txn ∧ time = record.start ∧ lastWritten record.log key ≠ none ∧
          (record'.phase = .active ∨ record'.phase = .decided))
    (written : ∀ key time, state'.claims key time = .written →
      state.claims key time = .written ∨
        state.claims key time = .writing txn ∧ record'.phase = .installed)
    (installed : record.phase ≠ .installed)
    (installs : record'.phase = .installed → record.phase = .decided ∧ record'.log = record.log)
    (versions : ∀ key time, state'.versions key time ≠ none → state'.claims key time = .written) :
    Sound contents (state'.put txn record') where
  fits := by
    intro other current here
    rcases State.put_cases here with ⟨rfl, rfl⟩ | ⟨differs, old⟩
    · exact fits.keeps (.of_eq rfl rfl)
    · rw [records] at old
      exact ((sound.fits other current old).keeps (keeps other differs)).keeps (.of_eq rfl rfl)
  base := base
  writing := by
    intro key time writer claimed
    rcases writing key time writer claimed with ⟨old, phase⟩ | ⟨rfl, rfl, own, phase⟩
    · obtain ⟨current, there, at', own, phase'⟩ := sound.writing key time writer old
      by_cases same : writer = txn
      · subst same
        obtain rfl := Option.some.inj (present.symm.trans there)
        exact ⟨record', State.put_self, start.trans at', wrote key own, phase rfl⟩
      · exact ⟨current, State.put_of_ne (records ▸ there) same, at', own, phase'⟩
    · exact ⟨record', State.put_self, start, wrote key own, phase⟩
  written := by
    intro key time claimed
    rcases written key time claimed with old | ⟨old, phase⟩
    · refine (sound.written key time old).imp_right fun found => ?_
      obtain ⟨writer, current, there, phase, at', own⟩ := found
      have differs : writer ≠ txn := by
        rintro rfl
        obtain rfl := Option.some.inj (present.symm.trans there)
        exact installed phase
      exact ⟨writer, current, State.put_of_ne (records ▸ there) differs, phase, at', own⟩
    · obtain ⟨current, there, at', own, -⟩ := sound.writing key time txn old
      obtain rfl := Option.some.inj (present.symm.trans there)
      exact .inr ⟨txn, record', State.put_self, phase, start.trans at', wrote key own⟩
  versions := versions
  single := by
    -- What has been installed is written, and a decided transaction has claimed it itself.
    have apart : ∀ other current key, other ≠ txn → state.records other = some current →
        current.phase = .installed → record'.phase = .installed →
        current.start = record'.start → lastWritten current.log key ≠ none →
        lastWritten record'.log key = none := by
      intro other current key differs there phase phase' same own
      by_contra own'
      obtain ⟨decided, log⟩ := installs phase'
      have claimed := (sound.fits txn record present).decided decided key (log ▸ own')
      obtain ⟨value, written⟩ := Option.ne_none_iff_exists'.1 own
      have written' := ((sound.fits other current there).installed phase key value written).1
      rw [same, start, claimed] at written'
      exact absurd written' (by simp)
    intro first second current current' key here here' phase phase' same own own'
    rcases State.put_cases here with ⟨rfl, rfl⟩ | ⟨differs, old⟩ <;>
      rcases State.put_cases here' with ⟨rfl, rfl⟩ | ⟨differs', old'⟩
    · rfl
    · exact absurd (apart second current' key differs' (records ▸ old') phase' phase same.symm own')
        own
    · exact absurd (apart first current key differs (records ▸ old) phase phase' same own) own'
    · exact sound.single first second current current' key (records ▸ old) (records ▸ old') phase
        phase' same own own'

/-! ## The steps -/

theorem begin (sound : Sound contents state) {start : Time} (new : state.records txn = none)
    (later : ⊥ < start) : Sound contents (state.put txn (.new start)) where
  fits := by
    intro other current here
    rcases State.put_cases here with ⟨rfl, rfl⟩ | ⟨-, old⟩
    · exact
        { later := later
          decided := by simp [Record.new]
          installed := by simp [Record.new]
          guarded := by simp [Record.new]
          answered := by simp [Record.new] }
    · exact (sound.fits other current old).keeps (.of_eq rfl rfl)
  base := sound.base
  writing := by
    intro key time writer claimed
    obtain ⟨current, there, rest⟩ := sound.writing key time writer claimed
    exact ⟨current, State.put_of_ne there (by rintro rfl; simp [new] at there), rest⟩
  written := by
    intro key time claimed
    refine (sound.written key time claimed).imp_right fun found => ?_
    obtain ⟨writer, current, there, rest⟩ := found
    exact ⟨writer, current, State.put_of_ne there (by rintro rfl; simp [new] at there), rest⟩
  versions := sound.versions
  single := by
    intro first second current current' key here here' phase phase' same own own'
    rcases State.put_cases here with ⟨rfl, rfl⟩ | ⟨-, old⟩
    · simp [Record.new] at phase
    · rcases State.put_cases here' with ⟨rfl, rfl⟩ | ⟨-, old'⟩
      · simp [Record.new] at phase'
      · exact sound.single first second current current' key old old' phase phase' same own own'

theorem append (sound : Sound contents state) (present : state.records txn = some record)
    (active : record.phase = .active) {entry : Entry Key Value}
    (answers : ∀ key value, entry = .read key value →
      record.Answers state record.log key value) :
    Sound contents (state.put txn (record.append entry)) := by
  refine sound.put present rfl rfl (fun key wrote => ?_) (fun other _ => .of_eq rfl rfl)
    ((sound.fits txn record present).append active answers) sound.base
    (fun _ _ _ claimed => .inl ⟨claimed, fun _ => .inl active⟩) (fun _ _ claimed => .inl claimed)
    (by simp [active]) (by simp [Record.append, active]) sound.versions
  rw [Record.append, lastWritten_append]
  exact fun none' => wrote (Option.or_eq_none_iff.1 none').2

theorem scan (sound : Sound contents state) (present : state.records txn = some record)
    (active : record.phase = .active) {range : Set Time} [DecidablePred (· ∈ range)]
    (before : ∀ time ∈ range, time < record.start)
    (passes : ∀ time ∈ range, (state.claims key time).Passes) :
    Sound contents (state.scan txn record key range) := by
  have fits := sound.fits txn record present
  have writing : ∀ other time writer,
      changeAt state.claims key range (.share txn) other time = .writing writer ↔
        state.claims other time = .writing writer := by
    intro other time writer
    unfold changeAt
    split <;> simp
  have written : ∀ other time,
      changeAt state.claims key range (.share txn) other time = .written ↔
        state.claims other time = .written := by
    intro other time
    unfold changeAt
    split <;> simp
  have keeps : ∀ reader, Keeps state
      { state with claims := changeAt state.claims key range (.share txn) } reader := by
    intro reader
    refine ⟨fun other time => (writing other time reader).2, fun other time value claimed version =>
      ⟨(written other time).2 claimed, version⟩, fun other time guards => ?_⟩
    simp only [changeAt]
    split
    · exact Claim.guards_share guards
    · exact guards
  have more : ∀ other, record.guarded other ⊆
      Function.update record.guarded key (record.guarded key ∪ range) other := by
    intro other
    by_cases same : other = key
    · subst same
      simp
    · simp [same]
  refine sound.put present rfl rfl (fun _ wrote => wrote) (fun other _ => keeps other) ?_
    (fun other => ⟨(written other ⊥).2 (sound.base other).1, (sound.base other).2⟩)
    (fun other time writer claimed => .inl ⟨(writing other time writer).1 claimed,
      fun _ => .inl active⟩)
    (fun other time claimed => .inl ((written other time).1 claimed)) (by simp [active])
    (by simp [active]) (fun other time some' => (written other time).2 (sound.versions other time some'))
  refine
    { later := fits.later
      decided := fun phase => by simp [active] at phase
      installed := fun phase => by simp [active] at phase
      guarded := fun phase other time member => ?_
      answered := fun phase before key' value after whole => ?_ }
  · by_cases inRange : other = key ∧ time ∈ range
    · refine ⟨before time inRange.2, ?_⟩
      simpa [changeAt, inRange] using Claim.guards_share_self (passes time inRange.2)
    · have old : time ∈ record.guarded other := by
        by_cases same : other = key
        · subst same
          simpa [not_and.1 inRange rfl] using member
        · simpa [same] using member
      obtain ⟨earlier, guards⟩ := fits.guarded phase other time old
      exact ⟨earlier, by simpa [changeAt, inRange] using guards⟩
  · exact (fits.answered phase before key' value after whole).mono
      (fun time => (keeps txn).written key' time value) rfl (more key')

theorem lock (sound : Sound contents state) (present : state.records txn = some record)
    (active : record.phase = .active) (own : lastWritten record.log key ≠ none)
    (free : state.claims key record.start = .free) :
    Sound contents (state.lock txn key record.start) := by
  have fits := sound.fits txn record present
  -- Only the point itself changes, and it was free.
  have stays : ∀ other time, state.claims other time ≠ .free →
      (state.lock txn key record.start).claims other time = state.claims other time := by
    intro other time held
    simp only [State.lock, changeAt]
    rw [if_neg]
    rintro ⟨rfl, rfl⟩
    exact held free
  have new : ∀ other time claim, claim ≠ .free →
      (state.lock txn key record.start).claims other time = claim →
      state.claims other time = claim ∨
        other = key ∧ time = record.start ∧ claim = .writing txn := by
    intro other time claim held claimed
    simp only [State.lock, changeAt] at claimed
    split at claimed
    · next here =>
        obtain ⟨rfl, rfl⟩ := here
        rw [free] at claimed
        exact .inr ⟨rfl, rfl, claimed.symm⟩
    · exact .inl claimed
  have keeps : ∀ other, Keeps state (state.lock txn key record.start) other := by
    intro reader
    refine ⟨fun other time claimed => ?_, fun other time value claimed version => ?_,
      fun other time guards => ?_⟩
    · rw [stays other time (by simp [claimed]), claimed]
    · exact ⟨by rw [stays other time (by simp [claimed]), claimed], version⟩
    · rw [stays other time]
      · exact guards
      · intro same
        rw [same] at guards
        exact guards
  have result : Sound contents ((state.lock txn key record.start).put txn record) :=
    sound.put present rfl rfl (fun _ wrote => wrote) (fun other _ => keeps other)
      (fits.keeps (keeps txn))
    (fun other => ((keeps txn).written other ⊥ (contents other)) (sound.base other).1
      (sound.base other).2)
    (fun other time writer claimed => ?_) (fun other time claimed => ?_) (by simp [active])
    (by simp [active]) (fun other time some' => ?_)
  · have same : (state.lock txn key record.start).put txn record =
        state.lock txn key record.start := by
      simp [State.put, State.lock, ← present]
    rwa [same] at result
  · rcases new other time _ (by simp) claimed with old | ⟨rfl, rfl, same⟩
    · exact .inl ⟨old, fun _ => .inl active⟩
    · exact .inr ⟨Claim.writing.inj same, rfl, own, .inl active⟩
  · exact (new other time _ (by simp) claimed).imp_right fun here => absurd here.2.2 (by simp)
  · have claimed := sound.versions other time some'
    rw [stays other time (by simp [claimed]), claimed]

theorem decide (sound : Sound contents state) (present : state.records txn = some record)
    (active : record.phase = .active)
    (claimed : ∀ key, lastWritten record.log key ≠ none →
      state.claims key record.start = .writing txn) :
    Sound contents (state.decide txn record) := by
  have fits := sound.fits txn record present
  refine sound.put present rfl rfl (fun _ wrote => wrote) (fun other _ => .of_eq rfl rfl) ?_
    sound.base
    (fun _ _ _ writes => .inl ⟨writes, fun _ => .inr rfl⟩) (fun _ _ writes => .inl writes)
    (by simp [active]) (by simp) sound.versions
  exact
    { later := fits.later
      decided := fun _ => claimed
      installed := by simp
      guarded := fun _ => fits.guarded (by simp [active])
      answered := fun _ => fits.answered (by simp [active]) }

theorem install (sound : Sound contents state) (present : state.records txn = some record)
    (decided : record.phase = .decided) : Sound contents (state.install txn record) := by
  have fits := sound.fits txn record present
  have unwritten : ∀ key, state.claims key record.start = .written →
      lastWritten record.log key = none := by
    intro key written
    by_contra wrote
    rw [fits.decided decided key wrote] at written
    exact absurd written (by simp)
  -- What is written already is not written again.
  have written : ∀ key time value, state.claims key time = .written →
      state.versions key time = some value →
      (state.claims key time).freeze txn = .written ∧
        (if time = record.start then (lastWritten record.log key).or (state.versions key time)
          else state.versions key time) = some value := by
    intro key time value claimed version
    refine ⟨by rw [claimed]; rfl, ?_⟩
    split
    · next at' =>
        rw [unwritten key (at' ▸ claimed), version]
        rfl
    · exact version
  refine sound.put present rfl rfl (fun _ wrote => wrote) (fun other differs => ?_) ?_
    (fun key => written key ⊥ (contents key) (sound.base key).1 (sound.base key).2)
    (fun key time writer claimed => ?_) (fun key time claimed => ?_) (by simp [decided])
    (fun _ => ⟨decided, rfl⟩) (fun key time some' => ?_)
  · refine ⟨fun key time claimed => ?_, written, fun key time => Claim.guards_freeze⟩
    exact Claim.freeze_eq_writing.2 ⟨claimed, differs⟩
  · refine
      { later := fits.later
        decided := by simp
        installed := fun _ key value wrote => ?_
        guarded := fun _ key time member =>
          (fits.guarded (by simp [decided]) key time member).imp_right Claim.guards_freeze
        answered := fun _ before key value after whole =>
          (fits.answered (by simp [decided]) before key value after whole).mono
            (fun time => written key time value) rfl subset_rfl }
    have claimed := fits.decided decided key (by simp [wrote])
    exact ⟨Claim.freeze_eq_written.2 (.inr claimed), by simp [wrote]⟩
  · obtain ⟨old, differs⟩ := Claim.freeze_eq_writing.1 claimed
    exact .inl ⟨old, fun same => absurd same differs⟩
  · exact (Claim.freeze_eq_written.1 claimed).imp_right fun old => ⟨old, rfl⟩
  · refine Claim.freeze_eq_written.2 ?_
    simp only at some'
    split at some'
    · next at' =>
        by_cases wrote : lastWritten record.log key = none
        · rw [wrote, Option.none_or] at some'
          exact .inl (sound.versions key time some')
        · exact .inr (at' ▸ fits.decided decided key wrote)
    · exact .inl (sound.versions key time some')

theorem drop (sound : Sound contents state) (present : state.records txn = some record)
    (active : record.phase = .active) : Sound contents (state.drop txn record) := by
  have fits := sound.fits txn record present
  refine sound.put present rfl rfl (fun _ wrote => wrote) (fun other differs => ?_) ?_
    (fun key => ⟨Claim.release_eq_written.2 (sound.base key).1, (sound.base key).2⟩)
    (fun key time writer claimed => ?_) (fun key time claimed => ?_) (by simp [active]) (by simp)
    (fun key time some' => Claim.release_eq_written.2 (sound.versions key time some'))
  · refine ⟨fun key time claimed => ?_, fun key time value claimed version => ?_,
      fun key time guards => Claim.guards_release guards differs⟩
    · exact Claim.release_eq_writing.2 ⟨claimed, differs⟩
    · exact ⟨Claim.release_eq_written.2 claimed, version⟩
  · exact
      { later := fits.later
        decided := by simp
        installed := by simp
        guarded := fun phase => absurd rfl phase
        answered := fun phase => absurd rfl phase }
  · obtain ⟨old, differs⟩ := Claim.release_eq_writing.1 claimed
    exact .inl ⟨old, fun same => absurd same differs⟩
  · exact .inl (Claim.release_eq_written.1 claimed)

/-- Every step keeps the invariant. -/
theorem step (sound : Sound contents state) (stepped : Step state state') :
    Sound contents state' := by
  cases stepped with
  | begin new later => exact sound.begin new later
  | write present active => exact sound.append present active (by simp)
  | readOwn present active own =>
      refine sound.append present active fun key value same => ?_
      obtain ⟨rfl, rfl⟩ := Entry.read.inj same
      exact .inl own
  | scan present active before passes => exact sound.scan present active before passes
  | answer present active unwritten before written version guarded =>
      refine sound.append present active fun key value same => ?_
      obtain ⟨rfl, rfl⟩ := Entry.read.inj same
      exact .inr ⟨unwritten, _, before, written, version, guarded⟩
  | lock present active own free => exact sound.lock present active own free
  | decide present active claimed => exact sound.decide present active claimed
  | install present decided => exact sound.install present decided
  | drop present active => exact sound.drop present active

/-- Every run keeps it. -/
theorem steps (sound : Sound contents state) (steps : Relation.ReflTransGen Step state state') :
    Sound contents state' := by
  induction steps with
  | refl => exact sound
  | tail _ stepped ih => exact ih.step stepped

theorem of_steps (steps : Relation.ReflTransGen Step (State.initial contents) state) :
    Sound contents state :=
  (Sound.initial contents).steps steps

end Sound

/-- Where a key is written there is a version. -/
theorem Sound.exists_version (sound : Sound contents state)
    (written : state.claims key time = .written) :
    ∃ value, state.versions key time = some value := by
  rcases sound.written key time written with rfl | ⟨txn, record, present, installed, rfl, wrote⟩
  · exact ⟨_, (sound.base key).2⟩
  · obtain ⟨value, last⟩ := Option.ne_none_iff_exists'.1 wrote
    exact ⟨value, ((sound.fits txn record present).installed installed key value last).2⟩

/-! ## The serial history -/

/--
A transaction may come before another one: it starts earlier, or at the same time
and writes nothing that the other reads.
-/
def Record.Precedes (record record' : Record Key Time Value) : Prop :=
  record.start < record'.start ∨ record.start = record'.start ∧
    ∀ key value, .read key value ∈ record'.log → lastWritten record.log key = none

omit [OrderBot Time] in
theorem Record.Precedes.start_le (precedes : record.Precedes record') :
    record.start ≤ record'.start :=
  precedes.elim le_of_lt fun both => both.1.le

/-- Some decided transactions in an order of their starts, all installed writers among them. -/
structure Schedule (state : State Txn Key Time Value) (order : List Txn) : Prop where
  nodup : order.Nodup
  decided : ∀ txn ∈ order, ∃ record, state.records txn = some record ∧ record.Decided
  complete : ∀ txn record key, state.records txn = some record → record.phase = .installed →
    lastWritten record.log key ≠ none → txn ∈ order
  sorted : order.Pairwise fun txn txn' => ∀ record record', state.records txn = some record →
    state.records txn' = some record' → record.Precedes record'

/-- At the start of an installed writer no other decided transaction writes the key. -/
theorem Sound.unwritten (sound : Sound contents state) (present : state.records txn = some record)
    (installed : record.phase = .installed) (wrote : lastWritten record.log key ≠ none)
    (there : state.records other = some record') (decided : record'.Decided)
    (same : record'.start = record.start) (differs : other ≠ txn) :
    lastWritten record'.log key = none := by
  by_contra wrote'
  rcases decided with decided | installed'
  · obtain ⟨value, written⟩ := Option.ne_none_iff_exists'.1 wrote
    have claimed := (sound.fits other record' there).decided decided key wrote'
    rw [same, ((sound.fits txn record present).installed installed key value written).1] at claimed
    exact absurd claimed (by simp)
  · exact differs
      (sound.single other txn record' record key there present installed' installed same wrote'
        wrote)

/-- What a decided transaction reads is what the ones before it have left. -/
theorem Sound.replay_eq (sound : Sound contents state) {before after : List Txn}
    (schedule : Schedule state (before ++ txn :: after))
    (present : state.records txn = some record) (live : record.phase ≠ .dropped) {value : Value}
    (read : .read key value ∈ record.log)
    (early : time < record.start) (written : state.claims key time = .written)
    (version : state.versions key time = some value)
    (guarded : ∀ between, time < between → between < record.start →
      between ∈ record.guarded key) :
    replay (before.map state.log).flatten contents key = value := by
  obtain ⟨sortedBefore, sortedAfter, across⟩ := List.pairwise_append.1 schedule.sorted
  have known : ∀ other ∈ before, ∃ record', state.records other = some record' ∧
      record'.Decided ∧ record'.Precedes record := by
    intro other member
    obtain ⟨record', there, decided⟩ := schedule.decided other (List.mem_append_left _ member)
    exact ⟨record', there, decided, across other member txn List.mem_cons_self _ _ there present⟩
  have silent : ∀ other ∈ before, (∀ record', state.records other = some record' →
      time < record'.start) → lastWritten (state.log other) key = none := by
    intro other member later
    obtain ⟨record', there, decided, earlier | ⟨-, unread⟩⟩ := known other member
    · rw [State.log_eq there]
      exact sound.silent present live guarded there decided (later record' there) earlier
    · rw [State.log_eq there]
      exact unread key value read
  rcases sound.written key time written with rfl | ⟨writer, record', there, installed, rfl, wrote⟩
  · rw [replay_flatten_of_silent]
    · exact Option.some.inj ((sound.base key).2.symm.trans version)
    · intro log member
      obtain ⟨other, earlier, rfl⟩ := List.mem_map.1 member
      exact silent other earlier fun record' there => (sound.fits other record' there).later
  · have value' := version
    obtain ⟨last, written'⟩ := Option.ne_none_iff_exists'.1 wrote
    rw [((sound.fits writer record' there).installed installed key last written').2] at value'
    obtain rfl := Option.some.inj value'
    -- The writer comes before the reader, and nobody in between writes the key.
    have member : writer ∈ before := by
      rcases List.mem_append.1 (schedule.complete writer record' key there installed wrote) with
        early' | late
      · exact early'
      · rcases List.mem_cons.1 late with rfl | late
        · obtain rfl := Option.some.inj (present.symm.trans there)
          exact absurd early (lt_irrefl _)
        · have precedes := (List.pairwise_cons.1 sortedAfter).1 writer late _ _ present there
          exact absurd early (not_lt_of_ge precedes.start_le)
    obtain ⟨first, rest, rfl⟩ := List.append_of_mem member
    rw [List.map_append, List.map_cons]
    refine replay_flatten_of_last (by rw [State.log_eq there, written']) fun log member => ?_
    obtain ⟨other, between, rfl⟩ := List.mem_map.1 member
    have inside : other ∈ first ++ writer :: rest :=
      List.mem_append_right _ (List.mem_cons_of_mem _ between)
    obtain ⟨record₁, here, decided, -⟩ := known other inside
    have sortedRest := (List.pairwise_append.1 sortedBefore).2.1
    have precedes := (List.pairwise_cons.1 sortedRest).1 other between _ _ there here
    rcases precedes.start_le.lt_or_eq with later | same
    · refine silent other inside fun current here' => ?_
      obtain rfl := Option.some.inj (here.symm.trans here')
      exact later
    · have once := (List.nodup_append.1 schedule.nodup).1
      have differs : other ≠ writer := fun is =>
        (List.nodup_cons.1 (List.nodup_append.1 once).2.1).1 (is ▸ between)
      rw [State.log_eq here]
      exact sound.unwritten there installed wrote here decided same.symm differs

/-- The logs of the decided transactions are legal in the order of the starts. -/
theorem Sound.legal (sound : Sound contents state) {order : List Txn}
    (schedule : Schedule state order) : Legal (order.map state.log).flatten contents := by
  suffices prefixes : ∀ before after, before ++ after = order →
      Legal (before.map state.log).flatten contents from prefixes order [] (by simp)
  intro before
  induction before using List.reverseRecOn with
  | nil => exact fun _ _ => trivial
  | append_singleton before txn ih =>
      intro after whole
      rw [List.append_assoc, List.singleton_append] at whole
      rw [List.map_append, List.flatten_append, legal_append]
      refine ⟨ih (txn :: after) whole, ?_⟩
      subst whole
      obtain ⟨record, present, decided⟩ :=
        schedule.decided txn (List.mem_append_right _ List.mem_cons_self)
      have live : record.phase ≠ .dropped := by
        rcases decided with phase | phase <;> simp [phase]
      rw [List.map_singleton, List.flatten_singleton, State.log_eq present]
      refine legal_of_reads fun first key value rest log => ?_
      rcases (sound.fits txn record present).answered live first key value rest log with
        own | ⟨unwritten, time, early, written, version, guarded⟩
      · rw [own]
        rfl
      · rw [unwritten]
        exact sound.replay_eq schedule present live (by simp [log]) early written version guarded

/-! ## Snapshots -/

/-- A list has a last element of a kind, or none. -/
theorem eq_append_of_exists {Element : Type*} (kind : Element → Prop) (elements : List Element) :
    (∀ element ∈ elements, ¬ kind element) ∨
      ∃ before element after, elements = before ++ element :: after ∧ kind element ∧
        ∀ later ∈ after, ¬ kind later := by
  induction elements with
  | nil => exact .inl (by simp)
  | cons first elements ih =>
      rcases ih with none' | ⟨before, element, after, rfl, is, none'⟩
      · by_cases is : kind first
        · exact .inr ⟨[], first, elements, rfl, is, none'⟩
        · exact .inl (List.forall_mem_cons.2 ⟨is, none'⟩)
      · exact .inr ⟨first :: before, element, after, rfl, is, none'⟩

/--
The versions up to a time are what the decided transactions up to that time
leave, once they are installed: the newest one of each key is its contents.
-/
theorem Sound.snapshot (sound : Sound contents state) {before after : List Txn}
    (schedule : Schedule state (before ++ after))
    (settled : ∀ txn ∈ before, ∀ record, state.records txn = some record →
      record.phase = .installed ∨ ∀ key, lastWritten record.log key = none)
    (early : ∀ txn ∈ before, ∀ record, state.records txn = some record → record.start ≤ time)
    (late : ∀ txn ∈ after, ∀ record, state.records txn = some record → time < record.start)
    (key : Key) :
    ∃ latest ≤ time,
      state.versions key latest = some (replay (before.map state.log).flatten contents key) ∧
      ∀ later, latest < later → later ≤ time → state.versions key later = none := by
  -- Whoever has written a version is decided, so it comes before the time if the version does.
  have writer : ∀ later ≤ time, ⊥ < later → state.versions key later ≠ none →
      ∃ txn ∈ before, ∃ record, state.records txn = some record ∧ record.start = later ∧
        lastWritten record.log key ≠ none := by
    intro later within positive some'
    rcases sound.written key later (sound.versions key later some') with
      rfl | ⟨txn, record, present, installed, rfl, wrote⟩
    · exact absurd positive (lt_irrefl _)
    · rcases List.mem_append.1 (schedule.complete txn record key present installed wrote) with
        member | member
      · exact ⟨txn, member, record, present, rfl, wrote⟩
      · exact absurd (late txn member record present) (not_lt_of_ge within)
  have known : ∀ txn ∈ before, ∃ record, state.records txn = some record := fun txn member =>
    (schedule.decided txn (List.mem_append_left _ member)).imp fun _ both => both.1
  rcases eq_append_of_exists (fun txn => lastWritten (state.log txn) key ≠ none) before with
    silent | ⟨first, txn, rest, rfl, wrote, silent⟩
  · refine ⟨⊥, bot_le, ?_, fun later after' within => ?_⟩
    · rw [replay_flatten_of_silent, (sound.base key).2]
      intro log member
      obtain ⟨txn, earlier, rfl⟩ := List.mem_map.1 member
      exact not_not.1 (silent txn earlier)
    · by_contra some'
      obtain ⟨txn, member, record, present, -, wrote⟩ := writer later within after' some'
      exact silent txn member (by rwa [State.log_eq present])
  · have member : txn ∈ first ++ txn :: rest := List.mem_append_right _ List.mem_cons_self
    obtain ⟨record, present⟩ := known txn member
    rw [State.log_eq present] at wrote
    obtain ⟨value, written⟩ := Option.ne_none_iff_exists'.1 wrote
    have fits := sound.fits txn record present
    have installed : record.phase = .installed :=
      (settled txn member record present).resolve_right fun nothing => wrote (nothing key)
    refine ⟨record.start, early txn member record present, ?_, fun later after' within => ?_⟩
    · rw [(fits.installed installed key value written).2, List.map_append, List.map_cons,
        replay_flatten_of_last (by rw [State.log_eq present, written])]
      intro log member
      obtain ⟨other, later, rfl⟩ := List.mem_map.1 member
      exact not_not.1 (silent other later)
    · by_contra some'
      obtain ⟨other, member', record', present', rfl, wrote'⟩ :=
        writer later within (lt_of_le_of_lt bot_le after') some'
      obtain ⟨sortedBefore, -, -⟩ := List.pairwise_append.1 schedule.sorted
      obtain ⟨-, -, across⟩ := List.pairwise_append.1 sortedBefore
      rcases List.mem_append.1 member' with earlier | later
      · exact absurd after' (not_lt_of_ge
          (across other earlier txn List.mem_cons_self _ _ present' present).start_le)
      · rcases List.mem_cons.1 later with rfl | later
        · obtain rfl := Option.some.inj (present.symm.trans present')
          exact lt_irrefl _ after'
        · exact silent other later (by rwa [State.log_eq present'])

end Mvtx.Lib.Multiversion
