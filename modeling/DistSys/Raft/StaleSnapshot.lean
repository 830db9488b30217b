import DistSys.Raft.ApplyOrder

namespace DistSys.Raft

variable {n : Nat} {C : Type} {c : Cluster n C} {s : Fin n} {as : List (Action n C)}
variable {a : Action n C} {d d' : Delivery n C} {service : List (ServiceEvent C)}

/-- Whenever `CondInstallSnapshot` was accepted in this history of a service,
the snapshot was ahead of every command received before. -/
def RefusesOld (service : List (ServiceEvent C)) : Prop :=
  ∀ before after index, service = before ++ .condInstalled index true :: after →
    ∀ i, hasReceived before i = true → i < index

/-- The server and the index of a call of `CondInstallSnapshot`. -/
def installing (c : Cluster n C) : Action n C → Option (Fin n × Int)
  | .condInstall s event =>
    match (c.server s).service[event]? with
    | some (.received (.snapshot _ _ index)) => some (s, index)
    | _ => none
  | _ => none

theorem installing_eq {event : Nat} {data : Blob C} {term index : Int}
    (found : (c.server s).service[event]? = some (.received (.snapshot data term index))) :
    installing c (.condInstall s event) = some (s, index) := by
  simp only [installing, found]

/-- A snapshot that the service passes back and that is ahead of the base is ahead of where
the service stands, or of the commit position. -/
def InstallsAhead (c : Cluster n C) (a : Action n C) : Prop :=
  ∀ call ∈ installing c a, (c.server call.1).rf.lastIncludedIndex < call.2 →
    (∃ v ∈ position (c.server call.1).bootIndex (c.server call.1).service, v < call.2) ∨
      (c.server call.1).rf.commitIndex < call.2

instance (c : Cluster n C) (a : Action n C) : Decidable (InstallsAhead c a) := by
  unfold InstallsAhead
  infer_instance

theorem RefusesOld.observe (refuses : RefusesOld service) {event : ServiceEvent C}
    (ahead : ∀ index, event = .condInstalled index true →
      ∀ i, hasReceived service i = true → i < index) : RefusesOld (service ++ [event]) := by
  intro before after index split i received
  rcases List.eq_nil_or_concat after with rfl | ⟨rest, last, rfl⟩
  · obtain ⟨rfl, same⟩ := List.append_inj' split rfl
    cases same
    exact ahead index rfl i received
  · rw [List.concat_eq_append, ← List.cons_append, ← List.append_assoc] at split
    obtain ⟨rfl, _⟩ := List.append_inj' split rfl
    exact refuses before rest index rfl i received

/-- No accepted snapshot was behind a command, and no command lies beyond where the service
stands. -/
structure Newest (boot : Int) (service : List (ServiceEvent C)) : Prop where
  refuses : RefusesOld service
  received : ∀ v ∈ position boot service, ∀ i, hasReceived service i = true → i ≤ v

theorem newest_nil (boot : Int) : Newest boot ([] : List (ServiceEvent C)) where
  refuses before after index split := absurd split (by simp)
  received := by rintro v _ i ⟨⟩

/-- A service goes on from where it stands, unless it accepts a snapshot. -/
theorem position_event_cases {u v : Int} {event : ServiceEvent C} (next : position u [event] = some v) :
    u ≤ v ∨ event = .condInstalled v true := by
  match event with
  | .received (.command _ index _) =>
    simp only [position] at next
    split at next
    next following =>
      cases next
      exact .inl (by omega)
    next => cases next
  | .received (.snapshot _ _ _) =>
    cases next
    exact .inl le_rfl
  | .condInstalled index true =>
    cases next
    exact .inr rfl
  | .condInstalled _ false =>
    cases next
    exact .inl le_rfl

theorem Newest.observe {boot : Int} (newest : Newest boot service) {event : ServiceEvent C}
    (ahead : ∀ index, event = .condInstalled index true →
      ∀ i, hasReceived service i = true → i < index) : Newest boot (service ++ [event]) where
  refuses := newest.refuses.observe ahead
  received := by
    intro v stands i received
    rw [position_append] at stands
    obtain ⟨u, before, next⟩ := Option.bind_eq_some_iff.mp stands
    rcases hasReceived_append.mp received with earlier | ⟨command, term, rfl⟩
    · rcases position_event_cases next with onward | installed
      · exact (newest.received u before i earlier).trans onward
      · exact (ahead v installed i earlier).le
    · simp only [position] at next
      split at next
      next =>
        cases next
        exact le_rfl
      next => cases next

variable [Inhabited C]

theorem Effect.newest (effect : Effect a s d d') (lined : Lined d) (newest : Newest d.bootIndex d.service)
    (ahead : ∀ event data term index, a = .condInstall s event →
      d.service[event]? = some (.received (.snapshot data term index)) → d.rf.lastIncludedIndex < index →
      (∃ v ∈ position d.bootIndex d.service, v < index) ∨ d.rf.commitIndex < index) :
    Newest d'.bootIndex d'.service := by
  cases effect with
  | quiet | advance | resume | compact => exact newest
  | offer => exact newest.observe (by rintro _ ⟨⟩)
  | apply => exact newest.observe (by rintro _ ⟨⟩)
  | @install event data term index act found =>
    refine newest.observe ?_
    intro index' same i received
    obtain ⟨rfl, accepted⟩ := ServiceEvent.condInstalled.inj same
    rcases condInstallSnapshot_cases d.rf term index data with ⟨_, refused⟩ | ⟨above, _⟩
    · rw [refused] at accepted
      cases accepted
    · rcases ahead event data term index act found above with ⟨v, stands, before⟩ | committed
      · exact (newest.received v stands i received).trans_lt before
      · exact (lined.received i received).trans_lt committed
  | reboot => exact newest_nil _

/-- In a run whose accepted snapshots are all ahead of where their service stands, or of the
commit position, no service is ever taken back behind a command it has received. -/
theorem refuses_old_snapshots (run : Cluster.after n C as = some c)
    (ahead : Along Cluster.step (init n C) as InstallsAhead) (s : Fin n) :
    RefusesOld (c.server s).service := by
  have newest : Newest (c.server s).bootIndex (c.server s).service := by
    refine exec_along (P := fun _ u => Newest (u.server s).bootIndex (u.server s).service)
      (newest_nil _) ?_ ahead run
    intro bs u a v before newest guard next
    obtain ⟨A, rel⟩ := Cluster.reached before
    obtain ⟨t, others, effect⟩ := rel.affects next
    by_cases here : s = t
    · subst here
      refine effect.newest (Cluster.lined before s) newest ?_
      rintro event data term index rfl found above
      exact guard (s, index) (installing_eq found) above
    · rw [others s here]
      exact newest
  exact newest.refuses

/-- Server 1 has nothing yet and installs the snapshot of server 0. -/
def installRun : List (Action 3 Nat) :=
  compactRun ++ [.broadcast 0, .replicate 0 2, .handleInstall 2, .sendSnapshot 1 0, .condInstall 1 0]

theorem installRun_runs : (Cluster.after 3 Nat installRun).isSome = true := by decide

theorem refuses_old_snapshots_first :
    Along Cluster.step (init 3 Nat) installRun InstallsAhead ∧
      ((Cluster.final installRun installRun_runs).server 1).rf.lastIncludedIndex = 1 ∧
      RefusesOld ((Cluster.final installRun installRun_runs).server 1).service :=
  ⟨by decide, by decide,
    refuses_old_snapshots (Cluster.after_final installRun installRun_runs) (by decide) 1⟩

/-- Server 1 has received both commands from entries whose reply is still on its
way when server 0, which has compacted its first command in the meantime, sends
it the snapshot. -/
def staleRun : List (Action 3 Nat) :=
  storeRun ++ [.appendReply 0 1 1, .applySend 0, .applySend 0, .applyResume 0, .broadcast 0,
    .replicate 0 2, .handleAppend 2, .applySend 1, .applySend 1, .applyResume 1, .snapshot 0 1 [1],
    .broadcast 0, .replicate 0 4, .handleInstall 3, .sendSnapshot 1 0, .condInstall 1 2]

theorem staleRun_runs : (Cluster.after 3 Nat staleRun).isSome = true := by decide

/-- The base is all that `CondInstallSnapshot` compares with: it accepts the
snapshot at index 1 although the service has received the commands at 1 and 2. -/
theorem stale_snapshot_accepted :
    ∃ c, Cluster.after 3 Nat staleRun = some c ∧ ¬ RefusesOld (c.server 1).service := by
  refine ⟨_, Cluster.after_final staleRun staleRun_runs, fun refuses => ?_⟩
  have history : ((Cluster.final staleRun staleRun_runs).server 1).service =
      [.received (.command 7 1 1), .received (.command 8 2 1),
        .received (.snapshot ⟨[1], [⟨7, 1⟩]⟩ 1 1)] ++ .condInstalled 1 true :: [] := by
    decide
  exact absurd (refuses _ _ _ history 2 (by decide)) (by decide)

end DistSys.Raft
