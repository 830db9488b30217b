import DistSys.Raft.Safety

namespace DistSys.Raft

variable {n : Nat} {C : Type} {c c' : Cluster n C} {rf rf' : Raft n C} {s : Fin n}
variable {as bs : List (Action n C)}

/-- What a longer log stores of a shorter one, above both bases. -/
theorem Shaped.entryAt_of_isPrefix (shaped : Shaped rf) (other : Shaped rf') (part : rf.fullLog <+: rf'.fullLog)
    {k : Int} (above : rf.lastIncludedIndex < k) (below : k ≤ rf.lastIndex) :
    ∃ e, rf.entryAt k = some e ∧ (k ≤ rf'.lastIncludedIndex ∨ rf'.entryAt k = some e) := by
  have base := shaped.base_nonneg
  rw [shaped.lastIndex_eq] at below
  obtain ⟨e, found, _⟩ := entry_of_inside (show 0 < k by omega) below
  refine ⟨e, by rw [shaped.entryAt_eq above, found], ?_⟩
  by_cases compacted : k ≤ rf'.lastIncludedIndex
  · exact .inl compacted
  · right
    rw [other.entryAt_eq (not_le.mp compacted)]
    exact Replica.getElem?_of_isPrefix part found

variable [Inhabited C]

/-- A leader only appends: as long as it leads its term, every entry that it has stored stays
at its index until it is compacted. -/
theorem leader_append_only (run : Cluster.after n C as = some c) (rest : exec Cluster.step c bs = some c')
    (leads : (c.server s).rf.state = .leader) (still : (c'.server s).rf.state = .leader)
    (same : (c'.server s).rf.currentTerm = (c.server s).rf.currentTerm) :
    (c.server s).rf.lastIndex ≤ (c'.server s).rf.lastIndex ∧
      ∀ k, (c.server s).rf.lastIncludedIndex < k → k ≤ (c.server s).rf.lastIndex →
        ∃ e, (c.server s).rf.entryAt k = some e ∧
          (k ≤ (c'.server s).rf.lastIncludedIndex ∨ (c'.server s).rf.entryAt k = some e) := by
  obtain ⟨A, rel⟩ := Cluster.reached run
  obtain ⟨B, grows, rel'⟩ := rel.exec rest
  have old := (rel.server s).node
  have new := (rel'.server s).node
  -- both logs are what the term has written so far
  have part : (c.server s).rf.fullLog <+: (c'.server s).rf.fullLog := by
    rw [← old.leader_book rel.inv leads, ← new.leader_book rel'.inv still, same]
    exact grows.book _
  refine ⟨?_, fun k above below => old.shaped.entryAt_of_isPrefix new.shaped part above below⟩
  rw [old.shaped.lastIndex_eq, new.shaped.lastIndex_eq]
  exact Int.ofNat_le.mpr part.length_le

/-- Server 0 leads term 1 and stores two entries at server 2; server 1 then crashes. -/
def keepRun : List (Action 3 Nat) := storeRun.drop electRun.length ++ [.crash 1]

theorem keepRun_runs : (exec Cluster.step (Cluster.final electRun electRun_runs) keepRun).isSome = true := by
  decide +kernel

theorem leader_append_only_stored : ∃ c, exec Cluster.step (Cluster.final electRun electRun_runs) keepRun = some c ∧
    (c.server 0).rf.lastIndex = 2 ∧
    ((Cluster.final electRun electRun_runs).server 0).rf.lastIndex ≤ (c.server 0).rf.lastIndex :=
  ⟨_, (Option.some_get keepRun_runs).symm, by decide +kernel,
    (leader_append_only (s := 0) (Cluster.after_final electRun electRun_runs) (Option.some_get keepRun_runs).symm
      (by decide) (by decide +kernel) (by decide +kernel)).1⟩

theorem Voted.eq_of_some {votedFor votedFor' : Int} {candidate : Fin n} (voted : Voted votedFor (some candidate))
    (voted' : Voted votedFor' (some candidate)) : votedFor' = votedFor := by
  rcases voted with ⟨_, ⟨⟩⟩ | ⟨_, value, ⟨⟩⟩
  rcases voted' with ⟨_, ⟨⟩⟩ | ⟨_, value', ⟨⟩⟩
  rw [value, value']

/-- The term of a server never decreases, and its vote in a term is never withdrawn or given
to another candidate, whatever crashes lie between. -/
theorem vote_stays (run : Cluster.after n C as = some c) (rest : exec Cluster.step c bs = some c') (s : Fin n) :
    (c.server s).rf.currentTerm ≤ (c'.server s).rf.currentTerm ∧
      ((c'.server s).rf.currentTerm = (c.server s).rf.currentTerm → (c.server s).rf.votedFor ≠ -1 →
        (c'.server s).rf.votedFor = (c.server s).rf.votedFor) := by
  obtain ⟨A, rel⟩ := Cluster.reached run
  obtain ⟨B, grows, rel'⟩ := rel.exec rest
  have old := (rel.server s).node
  have new := (rel'.server s).node
  refine ⟨?_, fun same cast => ?_⟩
  · rw [← old.term, ← new.term]
    exact grows.term s
  · obtain ⟨none, _⟩ | ⟨candidate, value, vote⟩ := old.vote
    · exact absurd none cast
    · have kept := grows.vote s _ candidate vote
      have voted := new.vote
      rw [same, kept] at voted
      have voted' := old.vote
      rw [vote] at voted'
      exact voted'.eq_of_some voted

theorem vote_stays_crashed : ∃ c, exec Cluster.step (Cluster.final electRun electRun_runs) keepRun = some c ∧
    ((Cluster.final electRun electRun_runs).server 1).rf.votedFor = 0 ∧
    (c.server 1).rf.votedFor = ((Cluster.final electRun electRun_runs).server 1).rf.votedFor :=
  ⟨_, (Option.some_get keepRun_runs).symm, by decide,
    (vote_stays (Cluster.after_final electRun electRun_runs) (Option.some_get keepRun_runs).symm 1).2
      (by decide +kernel) (by decide)⟩

end DistSys.Raft
