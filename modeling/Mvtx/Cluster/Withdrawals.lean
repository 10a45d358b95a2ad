import Mvtx.Client.WithdrawCoordinator
import Mvtx.Cluster.Snapshot

/-!
# Withdrawals

Any number of WithdrawCoordinators take money from the two accounts at the same
time, each after a look at both of them.  Since they have a serial history, they
never leave a debt together, whatever the other transactions do that would not
leave one by themselves.
-/

namespace Mvtx.Cluster

open Lib Lib.Serial Lib.Multiversion Server Client

variable {system : System} {world : World} {names : Equiv.Perm Nat} {labels : List Label}
  {moves : List Move}

/--
The calls of a Coordinator that may commit are those of a WithdrawCoordinator
that withdraws an amount below `2^31`.
-/
def Withdraws (labels : List Label) (system : System) (id amount : Nat) : Prop :=
  amount < 2 ^ 31 ∧ ∀ process coordinator,
    system.coordinators id = some (process, coordinator) → MayCommit coordinator →
    requested labels id =
      (WithdrawCoordinator.run amount).operations (coordinator.returned.map (·.2))

/--
What a Coordinator has asked for leaves no debt where there is none, and a sum of
the balances that is an `int` where it is one.
-/
def KeepsSolvent (labels : List Label) (id : Nat) : Prop :=
  ∀ contents, Solvent contents → Solvent (execute (requested labels id) contents).2

/-- Whatever part of the transactions that commit has run, there is no debt. -/
theorem solvent_of_committed
    (trace : Trace (World.step getNode) Unshared .first moves world)
    (refines : Refines labels system moves world names) (coherent : Coherent world)
    (banking : ∀ id, (∃ amount, Withdraws labels system id amount) ∨ KeepsSolvent labels id)
    {before after : List Nat} (order : world.committed = before ++ after) :
    Solvent (executeAll (before.map (requested labels)) fun _ => "0") := by
  induction before using List.reverseRecOn generalizing after with
  | nil => exact solvent_initial
  | append_singleton before id ih =>
      rw [List.append_assoc, List.singleton_append] at order
      have solvent := ih order
      have programs : ∀ other ∈ before, requested labels other = program moves other := by
        intro other member
        obtain ⟨_, _, _, -, -, -, whole, -⟩ := refines.exists_owner coherent
          (show other ∈ world.committed from order ▸ List.mem_append_left _ member)
        exact whole
      rw [List.map_append, List.map_singleton, executeAll, List.foldl_append, List.foldl_cons,
        List.foldl_nil, ← executeAll]
      rcases banking id with ⟨amount, small, withdraws⟩ | keeps
      · obtain ⟨process, coordinator, transaction, there, present, -, whole, may, returned, -⟩ :=
          refines.exists_owner coherent
            (show id ∈ world.committed from
              order ▸ List.mem_append_right _ List.mem_cons_self)
        have answers := returned_of_committed trace present order
        rw [returned, ← whole, ← List.map_congr_left programs] at answers
        rw [WithdrawCoordinator.execute_run (withdraws process coordinator there may)
          (by rw [answers, List.map_map]; rfl)]
        split
        · next enough => exact solvent.withdraw small enough
        · exact solvent
      · exact keeps _ solvent

/--
In every run in which no abort unlocks a shared lock, and whose Coordinators
either are WithdrawCoordinators of amounts below `2^31` or would by themselves
leave no debt and a sum of the balances below `2^31`, there is no debt at any
timestamp up to which they have ended: of the newest versions, the two balances
are not negative together.
-/
theorem solvent_of_trace
    (trace : Trace (System.step getNode) Isolated (.first .initial) labels system)
    (banking : ∀ id, (∃ amount, Withdraws labels system id amount) ∨ KeepsSolvent labels id)
    (ts : Nat)
    (ended : ∀ id process coordinator, system.coordinators id = some (process, coordinator) →
      MayCommit coordinator → coordinator.startTs ≤ ts → Ended coordinator) :
    ∃ contents : Nat → String, 0 ≤ atoi (contents 1) + atoi (contents 2) ∧
      ∀ key, ∃ latest ≤ ts, system.server.get key latest = some (contents key) ∧
        ∀ later, latest < later → later ≤ ts → system.server.get key later = none := by
  obtain ⟨moves, world, names, state, trace', refines, coherent, sound, exact', mirrors⟩ :=
    exists_refines trace
  have apart := apart_of_reach trace'.reach
  obtain ⟨before, after, order, early, late⟩ := exists_split ts world.startTs
    world.committed (startTs_committed coherent apart)
  exact ⟨_, (solvent_of_committed trace' refines coherent banking order).nonneg,
    refines.exists_newest coherent apart sound exact' mirrors ended order early late⟩

/-- Of two withdrawals of 10 from accounts with 5 and 7, one finds that there is enough. -/
theorem solvent_of_trace_of_two :
    ∃ system : System, system.server.get 1 20 = some "-5" ∧
      ∃ contents : Nat → String, 0 ≤ atoi (contents 1) + atoi (contents 2) ∧
        ∀ key, ∃ latest ≤ 30, system.server.get key latest = some (contents key) ∧
          ∀ later, latest < later → later ≤ 30 → system.server.get key later = none := by
  obtain ⟨system, trace, holds⟩ := exists_trace_of_admits Isolated
    [.start 0 7 10, .write 0 1 "5", .handle 1 0 false, .receive 0 1, .write 0 2 "7",
      .handle 2 0 false, .receive 0 2, .commit 0, .turn 0, .handle 3 0 false, .receive 0 3,
      .turn 0, .turn 0, .handle 4 0 false, .receive 0 4, .turn 0, .start 1 8 20,
      .start 2 9 30, .read 1 1, .handle 5 1 false, .receive 1 5, .read 1 2, .handle 6 2 false,
      .receive 1 6, .write 1 1 "-5", .handle 7 0 false, .receive 1 7, .commit 1, .turn 1,
      .handle 8 0 false, .receive 1 8, .turn 1, .turn 1, .handle 9 0 false, .receive 1 9,
      .turn 1, .read 2 1, .handle 10 3 false, .receive 2 10, .read 2 2, .handle 11 4 false,
      .receive 2 11, .commit 2, .turn 2, .turn 2, .handle 12 0 false, .receive 2 12, .turn 2]
    (fun system : System => decide (system.created = 3 ∧ system.server.get 1 20 = some "-5") &&
      ((List.range 3).all fun id => (system.coordinators id).any fun owner : Nat × Coordinator =>
        decide (Ended owner.2)) &&
      (system.coordinators 1).any (fun owner : Nat × Coordinator =>
        decide (owner.2.returned = [(1, some "5"), (2, some "7")])) &&
      (system.coordinators 2).any (fun owner : Nat × Coordinator =>
        decide (owner.2.returned = [(1, some "-5"), (2, some "7")])))
    (show admits (System.step getNode) _ (.first .initial) _ = true by decide)
    (show ends (System.step getNode) _ (.first .initial) _ = true by decide)
  simp only [Bool.and_eq_true, Option.any_eq_true, List.all_eq_true, List.mem_range,
    decide_eq_true_eq, and_assoc] at holds
  obtain ⟨created, stored, ended, ⟨first, here, returned⟩, second, here', returned'⟩ := holds
  obtain ⟨_, _, _, _, -, refines, -⟩ := exists_refines trace
  refine ⟨system, stored, solvent_of_trace trace (fun id => ?_) 30
    fun id process coordinator there _ _ => ?_⟩
  · match id with
    | 0 =>
        have five : atoi "5" = 5 := by decide
        have seven : atoi "7" = 7 := by decide
        refine .inr fun contents _ => ?_
        show Solvent (Function.update (Function.update contents 1 "5") 2 "7")
        constructor <;> simp [five, seven]
    | 1 =>
        refine .inl ⟨10, by decide, fun process coordinator there _ => ?_⟩
        obtain rfl := congrArg Prod.snd (Option.some.inj (here.symm.trans there))
        rw [returned]
        decide
    | 2 =>
        refine .inl ⟨10, by decide, fun process coordinator there _ => ?_⟩
        obtain rfl := congrArg Prod.snd (Option.some.inj (here'.symm.trans there))
        rw [returned']
        decide
    | id + 3 => exact .inr fun contents solvent => solvent
  · have below := refines.consistent.orderly.created id (by simp [there])
    obtain ⟨owner, there', ended'⟩ := ended id (created ▸ below)
    obtain rfl := congrArg Prod.snd (Option.some.inj (there'.symm.trans there))
    exact ended'

end Mvtx.Cluster
