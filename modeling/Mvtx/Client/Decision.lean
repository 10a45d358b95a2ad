import Mvtx.Client.Coordinator
import Mvtx.Lib.Run

/-!
# The decision of a two-phase commit

A Coordinator runs `commit` or `abort` against servers that may answer
anything, any number of times, while the other threads of its process do what
they like to the resolution client.  The trace of what it sends and receives,
the latest first, shows how the decision comes about and whom it has reached.
-/

namespace Mvtx.Client

open Lib Server

/-- What a Coordinator does that can be seen from outside. -/
inductive Action where
  | sent (message : Message)
  | received (reply : Reply)

/-- A Coordinator in `commit` or `abort`, with the trace of its actions. -/
structure Session where
  client : SimpleResolutionClient
  coordinator : Coordinator
  trace : List Action

/-- A step of a session. -/
inductive Event where
  /-- The Coordinator goes on from the head of a loop. -/
  | turn
  /-- The reply that it waits for arrives, whatever it says. -/
  | receive (reply : Reply)
  /-- Another thread leaves the resolution client in some state. -/
  | others (client : SimpleResolutionClient)

namespace Session

/-- `commit` or `abort` is called. -/
def begin (client : SimpleResolutionClient) (coordinator : Coordinator)
    (committing : Bool) : Session where
  client := client
  coordinator := coordinator.finish committing
  trace := []

/-- Take a step, which may not be possible. -/
def step (session : Session) : Event → Except Unit Session
  | .turn =>
      match session.coordinator.turn session.client with
      | none => .error ()
      | some (client, coordinator, messages) =>
          .ok
            { client := client
              coordinator := coordinator
              trace := messages.map .sent ++ session.trace }
  | .receive reply =>
      match session.coordinator.receive session.client reply with
      | none => .error ()
      | some (client, coordinator) =>
          .ok
            { client := client
              coordinator := coordinator
              trace := .received reply :: session.trace }
  | .others client => .ok { session with client := client }

end Session

/-! ## What a trace shows -/

variable {trace older : List Action} {node : Nat}

/-- Every reply of phase one carried the vote to commit. -/
def Unanimous (trace : List Action) : Prop :=
  ∀ nodes vote, .received (.p1c nodes vote) ∈ trace → vote = true

/-- A reply of phase one has listed the node. -/
def ListedInOne (trace : List Action) (node : Nat) : Prop :=
  ∃ nodes vote, .received (.p1c nodes vote) ∈ trace ∧ node ∈ nodes

/-- A reply of phase two has listed the node. -/
def ListedInTwo (trace : List Action) (node : Nat) : Prop :=
  ∃ nodes, .received (.p2c nodes) ∈ trace ∧ node ∈ nodes

/-- Whether an action sends the message of phase two. -/
def Action.sendsTwo : Action → Bool
  | .sent ⟨_, _, .p2c _ _⟩ => true
  | _ => false

/-- Every message of phase two carries the vote. -/
def Announces (trace : List Action) (vote : Bool) : Prop :=
  ∀ address tag tid vote', .sent ⟨address, tag, .p2c tid vote'⟩ ∈ trace → vote' = vote

/-- Phase one had listed the nodes before the first message of phase two was sent. -/
def ListedBefore (trace : List Action) (nodes : Finset Nat) : Prop :=
  ∀ action older, action :: older <:+ trace → action.sendsTwo = true →
    ∀ node ∈ nodes, ListedInOne older node

theorem ListedInOne.mono (listed : ListedInOne older node)
    (within : ∀ action ∈ older, action ∈ trace) : ListedInOne trace node := by
  obtain ⟨nodes, vote, member, inNodes⟩ := listed
  exact ⟨nodes, vote, within _ member, inNodes⟩

theorem ListedInTwo.mono (listed : ListedInTwo older node)
    (within : ∀ action ∈ older, action ∈ trace) : ListedInTwo trace node := by
  obtain ⟨nodes, member, inNodes⟩ := listed
  exact ⟨nodes, within _ member, inNodes⟩

/-- More actions come on top once phase one has listed the nodes. -/
theorem ListedBefore.append {nodes : Finset Nat} (before : ListedBefore trace nodes)
    (more : List Action)
    (listed : (∀ action ∈ more, action.sendsTwo = false) ∨
      ∀ node ∈ nodes, ListedInOne trace node) :
    ListedBefore (more ++ trace) nodes := by
  induction more with
  | nil => exact before
  | cons action more ih =>
      have rest : ListedBefore (more ++ trace) nodes :=
        ih (listed.imp_left fun none other later => none other (by simp [later]))
      intro first older suffix sends node member
      rw [List.cons_append, List.suffix_cons_iff] at suffix
      rcases suffix with same | later
      · obtain ⟨rfl, rfl⟩ := List.cons.inj same
        rcases listed with none | listed
        · exact absurd sends (by simp [none first (by simp)])
        · exact (listed node member).mono fun other inTrace => by simp [inTrace]
      · exact rest first older later sends node member

/-! ## The decision -/

/-- What holds of a session that has been begun by `coordinator`. -/
structure Decides (readNodes writeNodes : Finset Nat) (committing : Bool)
    (session : Session) : Prop where
  sameRead : session.coordinator.readNodes = readNodes
  sameWrite : session.coordinator.writeNodes = writeNodes
  before : ListedBefore session.trace writeNodes
  control : match session.coordinator.control with
    | .phaseOne committing' loop =>
        committing' = committing ∧ (loop.vote = true ↔ Unanimous session.trace) ∧
          (∀ action ∈ session.trace, action.sendsTwo = false) ∧
          ∀ node ∈ writeNodes, node ∈ loop.remNodes ∨ ListedInOne session.trace node
    | .phaseTwo committing' vote loop =>
        committing' = committing ∧
          (vote = true ↔ committing = true ∧ Unanimous session.trace) ∧
          Announces session.trace vote ∧
          (∀ node ∈ writeNodes, ListedInOne session.trace node) ∧
          ∀ node ∈ writeNodes ∪ readNodes,
            node ∈ loop.remNodes ∨ ListedInTwo session.trace node
    | .ended committing' vote =>
        committing' = committing ∧
          (vote = true ↔ committing = true ∧ Unanimous session.trace) ∧
          Announces session.trace vote ∧
          (∀ node ∈ writeNodes, ListedInOne session.trace node) ∧
          ∀ node ∈ writeNodes ∪ readNodes, ListedInTwo session.trace node
    | .ready | .reading _ _ | .writing _ => False

theorem unanimous_append {more : List Action}
    (none : ∀ nodes vote, .received (.p1c nodes vote) ∉ more) :
    Unanimous (more ++ trace) ↔ Unanimous trace := by
  unfold Unanimous
  refine forall₂_congr fun nodes vote => ?_
  simp [none nodes vote]

theorem unanimous_cons {nodes : Finset Nat} {vote : Bool} :
    Unanimous (.received (.p1c nodes vote) :: trace) ↔ vote = true ∧ Unanimous trace := by
  unfold Unanimous
  constructor
  · intro all
    exact ⟨all nodes vote (by simp), fun nodes' vote' member =>
      all nodes' vote' (List.mem_cons_of_mem _ member)⟩
  · rintro ⟨here, rest⟩ nodes' vote' member
    rcases List.mem_cons.1 member with same | older
    · cases same
      exact here
    · exact rest nodes' vote' older

namespace Decides

variable {readNodes writeNodes : Finset Nat} {committing : Bool} {session session' : Session}

theorem begin (client : SimpleResolutionClient) (coordinator : Coordinator)
    (committing : Bool) :
    Decides coordinator.readNodes coordinator.writeNodes committing
      (.begin client coordinator committing) where
  sameRead := rfl
  sameWrite := rfl
  before := by
    intro action older suffix
    simp [Session.begin] at suffix
  control := by
    refine ⟨rfl, ?_, by simp [Session.begin], fun node member => .inl member⟩
    simp [RoundLoop.start, Unanimous, Session.begin]

/-- The Coordinator goes on from the head of a loop. -/
theorem turn (decides : Decides readNodes writeNodes committing session)
    (stepped : session.step .turn = .ok session') :
    Decides readNodes writeNodes committing session' := by
  obtain ⟨sameRead, sameWrite, before, control⟩ := decides
  rw [Session.step] at stepped
  split at stepped
  · exact absurd stepped (by simp)
  · next client coordinator messages turned =>
      obtain rfl := Except.ok.inj stepped
      unfold Coordinator.turn at turned
      split at turned
      · next committing' loop inLoop =>
          rw [inLoop] at control
          obtain ⟨rfl, vote, noTwo, listed⟩ := control
          split at turned
          · exact absurd turned (by simp)
          · split at turned
            · next empty =>
                -- Phase one is over: every node has been listed.
                obtain ⟨rfl, rfl, rfl⟩ := by simpa using turned
                have all : ∀ node ∈ writeNodes, ListedInOne session.trace node :=
                  fun node member => (listed node member).resolve_left (by simp [empty])
                refine ⟨sameRead, sameWrite, before, rfl, ?_, ?_, all, ?_⟩
                · simp [vote]
                · intro address tag tid vote' member
                  exact absurd (noTwo _ member) (by simp [Action.sendsTwo])
                · intro node member
                  rw [← sameRead, ← sameWrite] at member
                  exact .inl member
            · obtain ⟨rfl, rfl, rfl⟩ := by simpa using turned
              have sends : ∀ action ∈ (((loop.sendRound session.client).2.2.map
                  fun sent => (⟨sent.1, some sent.2,
                    session.coordinator.p1cRequest⟩ : Message)).map Action.sent),
                  action.sendsTwo = false ∧
                    ∀ nodes vote, action ≠ .received (.p1c nodes vote) := by
                simp only [List.mem_map, forall_exists_index, and_imp]
                rintro _ _ ⟨address, tag⟩ - rfl rfl
                exact ⟨rfl, fun _ _ => Action.noConfusion⟩
              refine ⟨sameRead, sameWrite, before.append _ (.inl fun action member =>
                (sends action member).1), rfl, ?_, ?_, ?_⟩
              · rw [unanimous_append fun nodes vote member => (sends _ member).2 nodes vote rfl]
                exact vote
              · intro action member
                rcases List.mem_append.1 member with new | old
                · exact (sends action new).1
                · exact noTwo action old
              · exact fun node member => (listed node member).imp_right fun inOne =>
                  inOne.mono fun action old => List.mem_append_right _ old
      · next committing' vote' loop inLoop =>
          rw [inLoop] at control
          obtain ⟨rfl, vote, announces, all, listed⟩ := control
          split at turned
          · exact absurd turned (by simp)
          · split at turned
            · next empty =>
                obtain ⟨rfl, rfl, rfl⟩ := by simpa using turned
                exact ⟨sameRead, sameWrite, before, rfl, vote, announces, all,
                  fun node member => (listed node member).resolve_left (by simp [empty])⟩
            · obtain ⟨rfl, rfl, rfl⟩ := by simpa using turned
              have sends : ∀ action ∈ (((loop.sendRound session.client).2.2.map
                  fun sent => (⟨sent.1, some sent.2,
                    .p2c session.coordinator.tid vote'⟩ : Message)).map Action.sent),
                  (∀ address tag tid vote, action = .sent ⟨address, tag, .p2c tid vote⟩ →
                    vote = vote') ∧
                    ∀ nodes vote, action ≠ .received (.p1c nodes vote) := by
                simp only [List.mem_map, forall_exists_index, and_imp]
                rintro _ _ ⟨address, tag⟩ - rfl rfl
                refine ⟨fun _ _ _ _ same => ?_, fun _ _ => Action.noConfusion⟩
                cases same
                rfl
              refine ⟨sameRead, sameWrite, before.append _ (.inr all), rfl, ?_, ?_, ?_, ?_⟩
              · rw [unanimous_append fun nodes vote member => (sends _ member).2 nodes vote rfl]
                exact vote
              · intro address tag tid vote member
                rcases List.mem_append.1 member with new | old
                · exact (sends _ new).1 address tag tid vote rfl
                · exact announces address tag tid vote old
              · exact fun node member => (all node member).mono fun action old =>
                  List.mem_append_right _ old
              · exact fun node member => (listed node member).imp_right fun inTwo =>
                  inTwo.mono fun action old => List.mem_append_right _ old
      · exact absurd turned (by simp)

/-- A reply arrives. -/
theorem receive {reply : Reply} (decides : Decides readNodes writeNodes committing session)
    (stepped : session.step (.receive reply) = .ok session') :
    Decides readNodes writeNodes committing session' := by
  obtain ⟨sameRead, sameWrite, before, control⟩ := decides
  rw [Session.step] at stepped
  split at stepped
  · exact absurd stepped (by simp)
  · next client coordinator received =>
      obtain rfl := Except.ok.inj stepped
      have before' : ListedBefore (.received reply :: session.trace) writeNodes :=
        before.append [.received reply] (.inl (by simp [Action.sendsTwo]))
      unfold Coordinator.receive at received
      split at received
      · next inLoop => simp [inLoop] at control
      · next inLoop => simp [inLoop] at control
      · next committing' loop nodes vote' inLoop =>
          rw [inLoop] at control
          obtain ⟨rfl, vote, noTwo, listed⟩ := control
          split at received
          · exact absurd received (by simp)
          · obtain ⟨rfl, rfl⟩ := by simpa using received
            refine ⟨sameRead, sameWrite, before', rfl, ?_, ?_, ?_⟩
            · rw [unanimous_cons, ← vote]
              simp [RoundLoop.collect, and_comm]
            · intro action member
              rcases List.mem_cons.1 member with rfl | old
              · rfl
              · exact noTwo action old
            · intro node member
              by_cases isListed : node ∈ nodes
              · exact .inr ⟨nodes, vote', by simp, isListed⟩
              · refine (listed node member).imp (fun remains => ?_) fun inOne =>
                  inOne.mono fun action old => List.mem_cons_of_mem _ old
                simp [RoundLoop.collect, remains, isListed]
      · next committing' vote' loop nodes inLoop =>
          rw [inLoop] at control
          obtain ⟨rfl, vote, announces, all, listed⟩ := control
          split at received
          · exact absurd received (by simp)
          · obtain ⟨rfl, rfl⟩ := by simpa using received
            refine ⟨sameRead, sameWrite, before', rfl, ?_, ?_, ?_, ?_⟩
            · rw [← List.singleton_append, unanimous_append (by simp)]
              exact vote
            · intro address tag tid vote member
              exact announces address tag tid vote (by simpa using member)
            · exact fun node member => (all node member).mono fun action old =>
                List.mem_cons_of_mem _ old
            · intro node member
              by_cases isListed : node ∈ nodes
              · exact .inr ⟨nodes, by simp, isListed⟩
              · refine (listed node member).imp (fun remains => ?_) fun inTwo =>
                  inTwo.mono fun action old => List.mem_cons_of_mem _ old
                simp [RoundLoop.collect, remains, isListed]
      · exact absurd received (by simp)

theorem step {event : Event} (decides : Decides readNodes writeNodes committing session)
    (stepped : session.step event = .ok session') :
    Decides readNodes writeNodes committing session' := by
  cases event with
  | turn => exact decides.turn stepped
  | receive reply => exact decides.receive stepped
  | others client =>
      obtain rfl := Except.ok.inj stepped
      exact ⟨decides.sameRead, decides.sameWrite, decides.before, decides.control⟩

end Decides

/--
The two-phase-commit decision: whatever the servers answer, when `commit`
returns it returns true exactly if every reply of phase one carried the vote
to commit, and when `abort` returns the decision is to abort.  All nodes that
are written were listed in phase one before the decision was sent, every
message of phase two carries it, and it has reached all nodes.
-/
theorem decision_of_session {client : SimpleResolutionClient} {coordinator : Coordinator}
    {committing committing' vote : Bool} {session : Session}
    (reached : Reach Session.step (fun _ _ => True)
      (.begin client coordinator committing) session)
    (returned : session.coordinator.control = .ended committing' vote) :
    (vote = true ↔ committing = true ∧ Unanimous session.trace) ∧
      ListedBefore session.trace coordinator.writeNodes ∧
      (∀ node ∈ coordinator.writeNodes, ListedInOne session.trace node) ∧
      Announces session.trace vote ∧
      ∀ node ∈ coordinator.writeNodes ∪ coordinator.readNodes,
        ListedInTwo session.trace node := by
  have decides : Decides coordinator.readNodes coordinator.writeNodes committing session :=
    reached.invariant (.begin client coordinator committing)
      fun _ _ _ decides _ stepped => decides.step stepped
  have control := decides.control
  rw [returned] at control
  obtain ⟨-, decision, announces, all, listed⟩ := control
  exact ⟨decision, decides.before, all, announces, listed⟩

/-- Node 2 is written and node 1 is read; the reply of phase one lists node 2 only. -/
theorem decision_of_session_of_one_round :
    ∃ (session : Session) (vote committing : Bool),
      session.coordinator.control = .ended committing vote ∧
      vote = true ∧
      (vote = true ↔ true = true ∧ Unanimous session.trace) ∧
      ListedBefore session.trace {2} ∧
      (∀ node ∈ ({2} : Finset Nat), ListedInOne session.trace node) ∧
      Announces session.trace vote ∧
      ∀ node ∈ ({2} ∪ {1} : Finset Nat), ListedInTwo session.trace node := by
  let coordinator : Coordinator :=
    { Coordinator.new 5 10 with readNodes := {1}, writeNodes := {2} }
  obtain ⟨session, reached, holds⟩ := exists_reach_of_ends (fun (_ : Session) _ => True)
    [.turn, .receive (.p1c {2} true), .turn, .turn, .receive (.p2c {1, 2}), .turn]
    (fun session => match session.coordinator.control with
      | .ended _ vote => vote
      | _ => false)
    (fun _ _ _ => trivial)
    (show ends Session.step _ (.begin .initial coordinator true) _ = true by decide)
  split at holds
  · next committing vote returned =>
      exact ⟨session, vote, committing, returned, holds, decision_of_session reached returned⟩
  · exact absurd holds (by decide)

end Mvtx.Client
