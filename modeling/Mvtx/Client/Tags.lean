import Mvtx.Client.SimpleResolutionClient

/-!
# The tags of a round

The messages of a round are numbered by a counter of 64 bits, which the threads
of a process share.  The replies are awaited by a counter of the type `int`,
which starts at the same number and is advanced once for every reply.  The two
agree as long as the tags of the round are numbers of an `int`.
-/

namespace Mvtx.Client

open Lib

/-- A value of 64 bits that an `int` can have. -/
def Narrow (x : Nat) : Prop := x < 2147483648 ∨ 18446744071562067968 ≤ x

theorem toInt_eq_self_iff {x : Nat} (bound : x < 18446744073709551616) :
    toInt x = x ↔ Narrow x := by
  simp only [toInt, Narrow]
  split_ifs <;> omega

theorem toInt_succ (x : Nat) : toInt (toInt x + 1) = toInt (x + 1) := by
  have same : (toInt x + 1) % 4294967296 = (x + 1) % 4294967296 := by
    simp only [toInt]
    split_ifs <;> omega
  simp only [toInt.eq_def (toInt x + 1), toInt.eq_def (x + 1), same]

theorem toInt_mod (x : Nat) : toInt (x % 18446744073709551616) = toInt x := by
  unfold toInt
  rw [Nat.mod_mod_of_dvd x (by decide)]

/-- All tags of a round are numbers of an `int`. -/
theorem forall_narrow_iff {tag count : Nat} (bound : tag < 18446744073709551616)
    (some' : count ≠ 0) :
    (∀ index < count, Narrow ((tag + index) % 18446744073709551616)) ↔
      tag + count ≤ 2147483648 ∨
        18446744071562067968 ≤ tag ∧ tag + count ≤ 18446744075857035264 := by
  constructor
  · intro narrow
    have first := narrow 0 (by omega)
    rw [Nat.add_zero, Nat.mod_eq_of_lt bound] at first
    rcases first with low | high
    · refine .inl (Nat.le_of_not_lt fun beyond => ?_)
      -- The tag after the greatest `int` belongs to the round.
      have crossing := narrow (2147483648 - tag) (by omega)
      rw [show tag + (2147483648 - tag) = 2147483648 by omega] at crossing
      simp [Narrow] at crossing
    · refine .inr ⟨high, Nat.le_of_not_lt fun beyond => ?_⟩
      have crossing := narrow (18446744075857035264 - tag) (by omega)
      rw [show tag + (18446744075857035264 - tag) = 18446744075857035264 by omega] at crossing
      simp [Narrow] at crossing
  · intro within index below
    unfold Narrow
    omega

theorem SimpleResolutionClient.findAddresses_tag (client : SimpleResolutionClient)
    (nodes : List Nat) (addresses : List String) :
    (client.findAddresses nodes addresses).1.tag = client.tag := by
  induction nodes generalizing client addresses with
  | nil => rfl
  | cons node nodes ih => exact ih _ _

namespace RoundLoop

/-- A reply, and what the threads of the process have made of the client by then. -/
structure Received where
  client : SimpleResolutionClient
  nodes : Finset Nat
  vote : Bool

/-- The loop after some replies. -/
def collectAll (loop : RoundLoop) : List Received → RoundLoop
  | [] => loop
  | received :: replies =>
      (loop.collect received.client received.nodes received.vote).2.collectAll replies

theorem collectAll_tag {loop : RoundLoop} {tag : Nat} (begun : loop.tag = toInt tag)
    (replies : List Received) :
    (loop.collectAll replies).tag = toInt (tag + replies.length) := by
  induction replies generalizing loop tag with
  | nil => exact begun
  | cons received replies ih =>
      have next : (loop.collect received.client received.nodes received.vote).2.tag =
          toInt (tag + 1) := by
        rw [← toInt_succ, ← begun]
        rfl
      rw [collectAll, ih next, List.length_cons, Nat.add_assoc, Nat.add_comm 1]

theorem collectAll_awaited (loop : RoundLoop) (replies : List Received) :
    (loop.collectAll replies).awaited = loop.awaited.drop replies.length := by
  induction replies generalizing loop with
  | nil => rfl
  | cons received replies ih =>
      rw [collectAll, ih, List.length_cons, ← List.drop_tail]
      rfl

theorem number_getElem? {tag : Nat} (bound : tag < 18446744073709551616)
    (addresses : List String) (index : Nat) :
    (number tag addresses)[index]? =
      addresses[index]?.map (·, (tag + index) % 18446744073709551616) := by
  induction addresses generalizing tag index with
  | nil => simp [number]
  | cons address addresses ih =>
      cases index with
      | zero => simp [number, Nat.mod_eq_of_lt bound]
      | succ index =>
          have next : uintSucc tag = (tag + 1) % 18446744073709551616 := by
            unfold uintSucc uintMax
            split_ifs <;> omega
          rw [number, List.getElem?_cons_succ, List.getElem?_cons_succ, next,
            ih (Nat.mod_lt _ (by decide)), Nat.mod_add_mod, Nat.add_right_comm, Nat.add_assoc]

/-- In one round, every reply is awaited by the tag that was given to its message. -/
def TagsAgree (client : SimpleResolutionClient) (loop : RoundLoop) : Prop :=
  ∀ (replies : List Received) (address : String) (tag : Nat),
    (sendRound client loop).2.2[replies.length]? = some (address, tag) →
      ((sendRound client loop).2.1.collectAll replies).awaited.head? = some address ∧
        ((sendRound client loop).2.1.collectAll replies).tag = tag

/--
The replies of a round are awaited by the tags of their messages if and only if
the tags of the round are below `2 ^ 31`, or from `2 ^ 64 - 2 ^ 31` on.
-/
theorem tagsAgree_iff {client : SimpleResolutionClient} {loop : RoundLoop}
    (bound : client.tag < 18446744073709551616)
    (some' : (sendRound client loop).2.1.addresses ≠ []) :
    TagsAgree client loop ↔
      client.tag + (sendRound client loop).2.1.addresses.length ≤ 2147483648 ∨
        18446744071562067968 ≤ client.tag ∧
          client.tag + (sendRound client loop).2.1.addresses.length ≤ 18446744075857035264 := by
  have begun : (sendRound client loop).2.1.tag = toInt client.tag :=
    congrArg toInt (client.findAddresses_tag _ _)
  have sent : (sendRound client loop).2.2 =
      number client.tag (sendRound client loop).2.1.addresses :=
    congrArg (number · _) (client.findAddresses_tag _ _)
  have awaited : (sendRound client loop).2.1.awaited = (sendRound client loop).2.1.addresses := rfl
  rw [← forall_narrow_iff bound (by simpa using some')]
  unfold TagsAgree
  simp only [sent, number_getElem? bound, collectAll_awaited, awaited, List.head?_drop,
    collectAll_tag begun]
  generalize (sendRound client loop).2.1.addresses = addresses at *
  have agree : ∀ index, toInt (client.tag + index) = (client.tag + index) % 18446744073709551616 ↔
      Narrow ((client.tag + index) % 18446744073709551616) := by
    intro index
    rw [← toInt_eq_self_iff (Nat.mod_lt _ (by decide)), toInt_mod]
  constructor
  · intro agreed index below
    obtain ⟨-, same⟩ := agreed (List.replicate index ⟨client, ∅, true⟩) addresses[index]
      ((client.tag + index) % 18446744073709551616) (by simp [below])
    rw [List.length_replicate] at same
    exact (agree index).1 same
  · intro narrow replies address tag numbered
    obtain ⟨_, present, same⟩ := Option.map_eq_some_iff.1 numbered
    obtain ⟨rfl, rfl⟩ := Prod.mk.inj same
    obtain ⟨below, -⟩ := List.getElem?_eq_some_iff.1 present
    exact ⟨present, (agree replies.length).2 (narrow replies.length below)⟩

/-- The first round of a process. -/
theorem tagsAgree_of_initial : TagsAgree .initial (.start {0}) :=
  (tagsAgree_iff (by decide) (by decide)).2 (.inl (by decide))

/-- The reply to the message with tag `2 ^ 31` is awaited by tag `2 ^ 64 - 2 ^ 31`. -/
theorem exists_not_tagsAgree :
    ¬ ∀ (client : SimpleResolutionClient) (loop : RoundLoop),
      client.tag < 18446744073709551616 → (sendRound client loop).2.1.addresses ≠ [] →
        TagsAgree client loop := by
  intro claim
  obtain ⟨-, same⟩ := claim { SimpleResolutionClient.initial with tag := 2147483648 } (.start {0})
    (by decide) (by decide) [] "0.0.0.0:10000" 2147483648 (by decide)
  revert same
  decide

end RoundLoop

end Mvtx.Client
