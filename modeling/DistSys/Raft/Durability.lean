import DistSys.Raft.StepEffect

namespace DistSys.Raft

variable {n : Nat} {C : Type} {A : World n C} {c c' : Cluster n C} {rf rf' : Raft n C}
variable {s : Fin n} {as : List (Action n C)} {a : Action n C} {d d' : Delivery n C}

/-- The five values that `readPersist` decodes from the current format. -/
def decodeState (data : List (GobValue C)) :
    Option (Int × Int × Int × Int × List (LogEntry C)) := do
  let (currentTerm, data) ← decodeInt data
  let (votedFor, data) ← decodeInt data
  let (lastIncludedIndex, lastIncludedTerm, logs) ← decodeOffset data
  return (currentTerm, votedFor, lastIncludedIndex, lastIncludedTerm, logs)

/-- The service of server `s` hands `bytes` over as the snapshot that ends at
`index`, in a call of `Snapshot` or of `CondInstallSnapshot`. -/
def Supplies (service : List (ServiceEvent C)) (a : Action n C) (s : Fin n) (index : Int)
    (bytes : List UInt8) : Prop :=
  a = .snapshot s index bytes ∨ ∃ event data term, a = .condInstall s event ∧
    service[event]? = some (.received (.snapshot data term index)) ∧ data.bytes = bytes

/-- Base and snapshot are as before. -/
structure Saved (rf rf' : Raft n C) : Prop where
  base : rf'.lastIncludedIndex = rf.lastIncludedIndex
  snapshot : rf'.persister.snapshot = rf.persister.snapshot

theorem saved_applyLoop (rf : Raft n C) : Saved rf rf.applyLoop.1 := by
  obtain ⟨_, node⟩ := applyLoop_node rf
  rw [node]
  exact ⟨rfl, rfl⟩

theorem saved_applyCommittedEntries (rf : Raft n C) : Saved rf rf.applyCommittedEntries.1 := by
  obtain ⟨_, node⟩ := applyCommittedEntries_node rf
  rw [node]
  exact ⟨rfl, rfl⟩

theorem saved_applyResume (rf : Raft n C) (lastSent : Int) : Saved rf (rf.applyResume lastSent).1 := by
  unfold applyResume
  split
  next => exact ⟨rfl, rfl⟩
  next =>
    have loop := saved_applyLoop
      { rf with lastApplied := if rf.lastApplied < lastSent then lastSent else rf.lastApplied }
    exact ⟨loop.base, loop.snapshot⟩

theorem Advances.saved {result : Raft n C × Option (Batch C)} (advances : Advances rf result) :
    Saved rf result.1 := by
  obtain ⟨rf₁, steady, rfl | rfl⟩ := advances
  · exact ⟨steady.base, steady.snapshot⟩
  · have loop := saved_applyCommittedEntries rf₁
    exact ⟨loop.base.trans steady.base, loop.snapshot.trans steady.snapshot⟩

variable [Inhabited C]

/-- The persisted snapshot is the one that some call of the run supplied when
it moved the base to where it is; before any such call there is none. -/
def Paired (as : List (Action n C)) (rf : Raft n C) (s : Fin n) : Prop :=
  rf.lastIncludedIndex = 0 ∧ rf.persister.snapshot.bytes = [] ∨
    ∃ bs a u u', bs ++ [a] <+: as ∧ Cluster.after n C bs = some u ∧ u.step a = some u' ∧
      Supplies (u.server s).service a s rf.lastIncludedIndex rf.persister.snapshot.bytes ∧
      (u.server s).rf.lastIncludedIndex < rf.lastIncludedIndex ∧
      (u'.server s).rf.lastIncludedIndex = rf.lastIncludedIndex

theorem Durable.saved_make (durable : Durable rf) (me : rf.me = s) (nonempty : rf.logs ≠ [])
    (base : 0 ≤ rf.lastIncludedIndex) : Saved rf (make s rf.persister) := by
  rw [durable.make_eq me nonempty base]
  exact ⟨rfl, rfl⟩

/-- An action keeps base and snapshot of its server together, or replaces both
by what the service supplies. -/
theorem Effect.saved (effect : Effect a s d d') (node : NodeRel A s d.rf) :
    Saved d.rf d'.rf ∨ d.rf.lastIncludedIndex < d'.rf.lastIncludedIndex ∧
      Supplies d.service a s d'.rf.lastIncludedIndex d'.rf.persister.snapshot.bytes := by
  cases effect with
  | quiet steady => exact Or.inl ⟨steady.base, steady.snapshot⟩
  | advance answer advances => exact Or.inl advances.saved
  | offer => exact Or.inl ⟨rfl, rfl⟩
  | apply under => exact Or.inl ⟨rfl, rfl⟩
  | resume act under => exact Or.inl (saved_applyResume d.rf _)
  | @compact index bytes act received =>
    simp only
    rcases snapshot_cases d.rf index bytes with same | ⟨term, suffix, covers, above, _, new⟩
    · rw [same]
      exact Or.inl ⟨rfl, rfl⟩
    · rw [new]
      exact Or.inr ⟨above, Or.inl act⟩
  | @install event data term index act found =>
    simp only
    rcases condInstallSnapshot_cases d.rf term index data with ⟨_, same⟩ | ⟨above, new⟩
    · rw [same]
      exact Or.inl ⟨rfl, rfl⟩
    · rw [new]
      exact Or.inr ⟨above, Or.inr ⟨event, data, term, act, found, rfl⟩⟩
  | reboot _ origin =>
    left
    rcases origin with rfl | ⟨term, rfl⟩
    · exact node.durable.saved_make node.me node.shaped.nonempty node.shaped.base_nonneg
    · have durable : Durable (d.rf.stepBack term) := durable_persist _
      have saved := durable.saved_make node.me node.shaped.nonempty node.shaped.base_nonneg
      exact ⟨saved.base, saved.snapshot⟩

theorem Paired.step (paired : Paired as (c.server s).rf s) (run : Cluster.after n C as = some c)
    (rel : ClusterRel c A) (next : c.step a = some c') : Paired (as ++ [a]) (c'.server s).rf s := by
  have kept : Saved (c.server s).rf (c'.server s).rf → Paired (as ++ [a]) (c'.server s).rf s := by
    intro saved
    unfold Paired
    rw [saved.base, saved.snapshot]
    rcases paired with empty | ⟨bs, b, u, u', before, rest⟩
    · exact Or.inl empty
    · exact Or.inr ⟨bs, b, u, u', before.trans (List.prefix_append _ _), rest⟩
  obtain ⟨t, others, effect⟩ := rel.affects next
  by_cases here : s = t
  · subst here
    rcases effect.saved (rel.server s).node with saved | ⟨above, supplies⟩
    · exact kept saved
    · exact Or.inr ⟨as, a, c, c', List.prefix_rfl, run, next, supplies, above, rfl⟩
  · refine kept ?_
    rw [others s here]
    exact ⟨rfl, rfl⟩

theorem Cluster.paired (run : Cluster.after n C as = some c) (s : Fin n) :
    Paired as (c.server s).rf s := by
  refine exec_history (P := fun bs u => Paired bs (u.server s).rf s) ?_ ?_ run
  · exact Or.inl ⟨rfl, rfl⟩
  · intro bs u a v before paired next
    obtain ⟨A, rel⟩ := Cluster.reached before
    exact paired.step before rel next

/-- Crash consistency: between critical sections the persister holds the
persistent fields and the snapshot that goes with the base, so that a crash
restores them and puts commit and apply positions at the base. -/
theorem crash_consistency (run : Cluster.after n C as = some c) (s : Fin n) :
    ((c.server s).rf.persister.raftState = [] ∧ (c.server s).rf.currentTerm = 0 ∧
        (c.server s).rf.votedFor = -1 ∧ (c.server s).rf.lastIncludedIndex = 0 ∧
        (c.server s).rf.lastIncludedTerm = 0 ∧ (c.server s).rf.logs = [⟨noneCommand, 0⟩] ∨
      decodeState (c.server s).rf.persister.raftState =
        some ((c.server s).rf.currentTerm, (c.server s).rf.votedFor, (c.server s).rf.lastIncludedIndex,
          (c.server s).rf.lastIncludedTerm, (c.server s).rf.logs)) ∧
      Paired as (c.server s).rf s ∧
      ∃ c', c.step (.crash s) = some c' ∧
        (c'.server s).rf.currentTerm = (c.server s).rf.currentTerm ∧
        (c'.server s).rf.votedFor = (c.server s).rf.votedFor ∧
        (c'.server s).rf.lastIncludedIndex = (c.server s).rf.lastIncludedIndex ∧
        (c'.server s).rf.lastIncludedTerm = (c.server s).rf.lastIncludedTerm ∧
        (c'.server s).rf.logs = (c.server s).rf.logs ∧
        (c'.server s).rf.commitIndex = (c.server s).rf.lastIncludedIndex ∧
        (c'.server s).rf.lastApplied = (c.server s).rf.lastIncludedIndex := by
  obtain ⟨A, rel⟩ := Cluster.reached run
  have node := (rel.server s).node
  have restored := node.durable.make_eq node.me node.shaped.nonempty node.shaped.base_nonneg
  have rebooted : ((c.setServer s (boot s (c.server s).rf.persister)).server s).rf =
      make s (c.server s).rf.persister := by
    rw [setServer_self]
    rfl
  refine ⟨?_, Cluster.paired run s, _, rfl, ?_⟩
  · rcases node.durable with saved | empty
    · rw [saved]
      exact Or.inr rfl
    · exact Or.inl empty
  · rw [rebooted, restored]
    exact ⟨rfl, rfl, rfl, rfl, rfl, rfl, rfl⟩

/-- Server 0 commits and applies two commands and compacts the first. -/
def compactRun : List (Action 3 Nat) :=
  storeRun ++ [.appendReply 0 1 1, .applySend 0, .applySend 0, .applyResume 0, .snapshot 0 1 [1]]

theorem compactRun_runs : (Cluster.after 3 Nat compactRun).isSome = true := by decide

theorem crash_consistency_compacted :
    ((Cluster.final compactRun compactRun_runs).server 0).rf.lastIncludedIndex = 1 ∧
      Paired compactRun ((Cluster.final compactRun compactRun_runs).server 0).rf 0 :=
  ⟨by decide, (crash_consistency (Cluster.after_final compactRun compactRun_runs) 0).2.1⟩

end DistSys.Raft
