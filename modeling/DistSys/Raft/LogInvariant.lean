import DistSys.Raft.StepEffect
import DistSys.Raft.Safety

namespace DistSys.Raft

open Replica (Grows Committed Moved)

variable {n : Nat} {C : Type} {A : World n C} {c c' : Cluster n C} {rf rf' : Raft n C}
variable {as : List (Action n C)} {a : Action n C} {s : Fin n} {d d' : Delivery n C}

/-- The stored log with its offsets: a placeholder that carries the base term,
positions in order, and terms that never fall and never pass the current one. -/
structure LogInvariant (rf : Raft n C) : Prop where
  nonempty : 1 ≤ rf.logs.length
  placeholder : rf.logs.head?.map LogEntry.term = some rf.lastIncludedTerm
  baseApplied : rf.lastIncludedIndex ≤ rf.lastApplied
  appliedCommit : rf.lastApplied ≤ rf.commitIndex
  commitLast : rf.commitIndex ≤ rf.lastIndex
  sorted : rf.logs.Pairwise fun e f => e.term ≤ f.term
  bounded : ∀ e ∈ rf.logs, e.term ≤ rf.currentTerm

/-- The four positions that only a crash may set back. -/
structure Forward (rf rf' : Raft n C) : Prop where
  term : rf.currentTerm ≤ rf'.currentTerm
  base : rf.lastIncludedIndex ≤ rf'.lastIncludedIndex
  commit : rf.commitIndex ≤ rf'.commitIndex
  applied : rf.lastApplied ≤ rf'.lastApplied

theorem Forward.refl (rf : Raft n C) : Forward rf rf := ⟨le_rfl, le_rfl, le_rfl, le_rfl⟩

/-- The base term is a term of the uncompacted log, or 0 at index 0. -/
theorem Shaped.baseTerm_cases (shaped : Shaped rf) :
    rf.persister.snapshot.covers = [] ∧ rf.lastIncludedTerm = 0 ∨
      ∃ e, rf.persister.snapshot.covers.getLast? = some e ∧ e.term = rf.lastIncludedTerm := by
  have last := termOf_length rf.persister.snapshot.covers
  rw [shaped.base, shaped.baseTerm] at last
  cases ends : rf.persister.snapshot.covers.getLast? with
  | none =>
    rw [ends] at last
    exact Or.inl ⟨List.getLast?_eq_none_iff.mp ends, last⟩
  | some e =>
    rw [ends] at last
    exact Or.inr ⟨e, rfl, last.symm⟩

theorem Shaped.logs_eq (shaped : Shaped rf) :
    ∃ e, rf.logs = e :: rf.logs.tail ∧ e.term = rf.lastIncludedTerm := by
  cases stored : rf.logs with
  | nil => exact absurd stored shaped.nonempty
  | cons e suffix => exact ⟨e, rfl, shaped.head e (by rw [stored]; rfl)⟩

theorem NodeRel.logInvariant [Inhabited C] (rel : NodeRel A s rf) (inv : Replica.Inv LogEntry.term A) :
    LogInvariant rf := by
  have rooted := inv.log_rooted s
  rw [rel.log] at rooted
  have order := inv.rooted_sorted rooted
  have upper : ∀ e ∈ rf.fullLog, e.term ≤ rf.currentTerm := by
    intro e member
    rw [← rel.term]
    exact inv.log_bound (by rwa [rel.log])
  have lower : ∀ e ∈ rf.fullLog, 0 < e.term := by
    intro e member
    rw [← rel.origin]
    exact inv.origin_lt_stamp rooted member
  have start : 0 ≤ rf.currentTerm := by
    rw [← rel.term, ← rel.origin]
    exact inv.origin_term s
  obtain ⟨e, stored, headTerm⟩ := rel.shaped.logs_eq
  have apart := List.pairwise_append.mp order
  -- the placeholder stands for the last entry the snapshot covers
  have below : ∀ f ∈ rf.logs.tail, e.term ≤ f.term := by
    intro f member
    rcases rel.shaped.baseTerm_cases with ⟨_, zero⟩ | ⟨g, last, same⟩
    · rw [headTerm, zero]
      exact (lower f (List.mem_append_right _ member)).le
    · rw [headTerm, ← same]
      exact apart.2.2 g (List.mem_of_getLast? last) f member
  have headBound : e.term ≤ rf.currentTerm := by
    rcases rel.shaped.baseTerm_cases with ⟨_, zero⟩ | ⟨g, last, same⟩
    · rw [headTerm, zero]
      exact start
    · rw [headTerm, ← same]
      exact upper g (List.mem_append_left _ (List.mem_of_getLast? last))
  constructor
  case nonempty => exact List.length_pos_iff.mpr rel.shaped.nonempty
  case placeholder => rw [stored, List.head?_cons, Option.map_some, headTerm]
  case baseApplied => exact rel.baseApplied
  case appliedCommit => exact rel.appliedCommit
  case commitLast => exact rel.commitLast
  case sorted =>
    rw [stored]
    exact List.pairwise_cons.mpr ⟨below, apart.2.1⟩
  case bounded =>
    intro f member
    rw [stored] at member
    rcases List.mem_cons.mp member with rfl | later
    · exact headBound
    · exact upper f (List.mem_append_right _ later)

theorem Steady.forward (steady : Steady rf rf') (term : rf.currentTerm ≤ rf'.currentTerm) :
    Forward rf rf' :=
  ⟨term, steady.base.ge, steady.commit, steady.applied.ge⟩

theorem forward_rebase [Inhabited C] (rf : Raft n C) {index : Int} (above : rf.lastIncludedIndex < index)
    (term : Int) (suffix : List (LogEntry C)) (data : Blob C) :
    Forward rf (rf.rebase index term suffix data) where
  term := le_rfl
  base := above.le
  commit := by rw [rebase_commitIndex]; exact le_max_left _ _
  applied := by rw [rebase_lastApplied]; exact le_max_left _ _

theorem forward_applyLoop (rf : Raft n C) : Forward rf rf.applyLoop.1 := by
  obtain ⟨applying, node⟩ := applyLoop_node rf
  rw [node]
  exact ⟨le_rfl, le_rfl, le_rfl, le_rfl⟩

theorem forward_applyResume (rf : Raft n C) (lastSent : Int) :
    Forward rf (rf.applyResume lastSent).1 := by
  unfold applyResume
  split
  next => exact ⟨le_rfl, le_rfl, le_rfl, le_rfl⟩
  next =>
    have loop := forward_applyLoop { rf with
      lastApplied := if rf.lastApplied < lastSent then lastSent else rf.lastApplied }
    have raised : rf.lastApplied ≤ if rf.lastApplied < lastSent then lastSent else rf.lastApplied := by
      split <;> omega
    exact ⟨loop.term, loop.base, loop.commit, raised.trans loop.applied⟩

theorem Advances.forward {result : Raft n C × Option (Batch C)} (advances : Advances rf result)
    (term : rf.currentTerm ≤ result.1.currentTerm) : Forward rf result.1 := by
  obtain ⟨rf₁, steady, rfl | rfl⟩ := advances
  · exact steady.forward term
  · obtain ⟨applying, node⟩ := applyCommittedEntries_node rf₁
    rw [node] at term ⊢
    exact ⟨term, steady.base.ge, steady.commit, steady.applied.ge⟩

variable [Inhabited C]

/-- Apart from a restart, whatever an action does to its server moves the four
positions forward, once its term does not fall. -/
theorem Effect.forward (effect : Effect a s d d') (alive : a.crashes = false)
    (later : d.rf.currentTerm ≤ d'.rf.currentTerm) : Forward d.rf d'.rf := by
  cases effect with
  | quiet steady => exact steady.forward later
  | advance answer advances => exact advances.forward later
  | offer => exact Forward.refl d.rf
  | apply under => exact Forward.refl d.rf
  | resume act under => exact forward_applyResume d.rf _
  | @compact index bytes act received =>
    simp only
    rcases snapshot_cases d.rf index bytes with same | ⟨_, suffix, covers, above, _, new⟩
    · rw [same]
      exact Forward.refl d.rf
    · rw [new]
      exact forward_rebase d.rf above _ suffix _
  | @install event data term index act found =>
    simp only
    rcases condInstallSnapshot_cases d.rf term index data with ⟨_, same⟩ | ⟨above, new⟩
    · rw [same]
      exact Forward.refl d.rf
    · rw [new]
      exact forward_rebase d.rf above _ _ _
  | reboot crash => rw [alive] at crash; cases crash

theorem ClusterRel.currentTerm_le (rel : ClusterRel c A) (next : c.step a = some c') (s : Fin n) :
    (c.server s).rf.currentTerm ≤ (c'.server s).rf.currentTerm := by
  obtain ⟨_, B, moved, rel'⟩ := rel.step next
  have grows := (moved.inv_grows rel.inv).2
  have term := grows.term s
  rwa [(rel.server s).node.term, (rel'.server s).node.term] at term

theorem ClusterRel.forward (rel : ClusterRel c A) (next : c.step a = some c')
    (alive : a.crashes = false) (s : Fin n) : Forward (c.server s).rf (c'.server s).rf := by
  have term := rel.currentTerm_le next s
  obtain ⟨actor, others, effect⟩ := rel.affects next
  by_cases acting : s = actor
  · subst acting
    exact effect.forward alive term
  · rw [others s acting]
    exact Forward.refl _

/-- The log of every server is well formed in every state of every run, and its
positions only ever move forward except in a crash. -/
theorem per_server_log_invariant (run : Cluster.after n C as = some c) :
    (∀ s, LogInvariant (c.server s).rf) ∧
      ∀ a c', a.crashes = false → c.step a = some c' →
        ∀ s, Forward (c.server s).rf (c'.server s).rf := by
  obtain ⟨A, rel⟩ := Cluster.reached run
  refine ⟨fun s => (rel.server s).node.logInvariant rel.inv, ?_⟩
  intro a c' alive next s
  exact rel.forward next alive s

theorem per_server_log_invariant_applied :
    LogInvariant ((Cluster.final applyRun applyRun_runs).server 0).rf ∧
      ((Cluster.final applyRun applyRun_runs).server 0).rf.lastApplied = 2 :=
  ⟨(per_server_log_invariant (Cluster.after_final applyRun applyRun_runs)).1 0, by decide⟩

end DistSys.Raft
