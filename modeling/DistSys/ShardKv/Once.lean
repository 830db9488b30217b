import DistSys.ShardKv.Refinement

namespace DistSys.ShardKv

open Shardctrler (NShards Config)

/-- A client's identifiers name one request. -/
def Identified (requests : List CommandRequest) : Prop :=
  ∀ first ∈ requests, ∀ second ∈ requests, first.clientId = second.clientId →
    first.commandId = second.commandId → first = second

/-- The table knows of an operation of a client, or of a later one. -/
def Knows (table : Operations) (request : CommandRequest) : Prop :=
  ∃ context, table request.clientId = some context ∧
    request.commandId ≤ context.maxAppliedCommandId

theorem Knows.mono {table more : Operations} {request : CommandRequest} (knows : Knows table request)
    (covers : Covers table more) : Knows more request := by
  obtain ⟨context, found, le⟩ := knows
  obtain ⟨later, there, le'⟩ := covers _ context found
  exact ⟨later, there, le.trans le'⟩

theorem knows_record {table : Operations} {request : CommandRequest} (writes : request.op ≠ .get) :
    Knows (request.record table) request := by
  refine ⟨⟨request.commandId, ⟨.ok, []⟩⟩, ?_, le_rfl⟩
  rw [CommandRequest.record, if_neg writes, Function.update_self]

/-- A write that the table knows is not executed. -/
theorem Knows.not_executes {kv : ShardKV} {request : CommandRequest}
    (knows : Knows kv.lastOperations request) (writes : request.op ≠ .get) :
    ¬ kv.executes request := by
  obtain ⟨context, found, le⟩ := knows
  rintro ⟨_, read | new⟩
  · exact writes read
  · simp only [ShardKV.isDuplicateRequest, found, decide_eq_false_iff_not] at new
    exact new le

namespace World

variable {w w' : World} {setting : Setting} {g h : Int} {a : Action} {s : Fin NShards}
variable {as : List Action} {ghost : Nat × Holding} {request : CommandRequest} {i p q : Nat}
variable {command : Command}

/-- The write at a position of a log is executed there. -/
def ExecutedAt (w : World) (g : Int) (p : Nat) (request : CommandRequest) : Prop :=
  (w.group g).log[p]? = some (.operation request) ∧ request.op ≠ .get ∧
    (w.stateAt g p).executes request

theorem ExecutedAt.follows (follows : Follows setting w w') (executed : ExecutedAt w' g p request) :
    ExecutedAt w g p request := by
  obtain ⟨here, writes, executes⟩ := executed
  rw [follows.log] at here
  have applied : w.applied g p := (List.getElem?_eq_some_iff.mp here).1.le
  rw [follows.grows.stateAt applied] at executes
  exact ⟨here, writes, executes⟩

/-- After a commit, an executed write was executed before or is the new one. -/
theorem ExecutedAt.commit (found : (w.group g).proposed[i]? = some command)
    (next : w.commit g i = some w') (executed : ExecutedAt w' h p request) :
    ExecutedAt w h p request ∨ h = g ∧ p = (w.group g).log.length ∧ command = .operation request ∧
      request.op ≠ .get ∧ (w.state g).executes request := by
  have grows := grows_commit next
  obtain ⟨_, log, rest⟩ := commit_log found next
  obtain ⟨here, writes, executes⟩ := executed
  have before (old : (w.group h).log[p]? = some (.operation request)) : ExecutedAt w h p request := by
    have applied : w.applied h p := (List.getElem?_eq_some_iff.mp old).1.le
    rw [grows.stateAt applied] at executes
    exact ⟨old, writes, executes⟩
  by_cases acting : h = g
  · subst acting
    rw [log] at here
    rcases getElem?_concat_cases here with old | ⟨rfl, is⟩
    · exact Or.inl (before old)
    · have applied : w.applied h (w.group h).log.length := Nat.le_refl _
      rw [grows.stateAt applied, stateAt_length] at executes
      exact Or.inr ⟨rfl, rfl, is, writes, executes⟩
  · rw [rest h acting] at here
    exact Or.inl (before here)

/-- Commands in a log were proposed. -/
def Logged (w : World) : Prop :=
  ∀ g, ∀ request, .operation request ∈ (w.group g).log → request ∈ w.requests

theorem logged_initial : Logged World.initial := by
  intro g request member
  cases member

theorem Logged.step (logged : Logged w) (numbered : setting.Numbered) (traced : Traced setting w)
    (next : w.step setting a = some w') : Logged w' := by
  intro h request member
  rcases step_committed numbered next with ⟨follows, _⟩ | ⟨g, i, command, found, commit, _⟩
  · rw [follows.log] at member
    exact follows.grows.requests.subset (logged h request member)
  · have grows := grows_commit commit
    obtain ⟨_, log, rest⟩ := commit_log found commit
    refine grows.requests.subset ?_
    by_cases acting : h = g
    · subst acting
      rw [log] at member
      rcases List.mem_append.mp member with old | new
      · exact logged h request old
      · cases List.mem_singleton.mp new
        exact traced.proposed h _ (List.mem_of_getElem? found)
    · rw [rest h acting] at member
      exact logged h request member

/-- A group that serves a shard knows all that its owner knows. -/
theorem Owned.covers (owned : Owned setting s w ghost) (numbered : setting.Numbered)
    (steady : Steady setting w) (nonzero : g ≠ 0) (serves : (w.state g).canServe s) :
    Covers ghost.2.table (w.state g).lastOperations :=
  (owned.value_le (steady.live numbered nonzero serves ghost)).2

/-- What the owner of a shard knows is never forgotten. -/
theorem Owned.covers_valueAfter (owned : Owned setting s w ghost) (noReturn : setting.NoReturn)
    (numbered : setting.Numbered) (steady : Steady setting w) (nonzero : g ≠ 0)
    (sourced : Sourced setting w g command) :
    Covers ghost.2.table ((w.state g).valueAfter s ghost.2 command).table := by
  by_cases changes : ∃ request, command = .operation request ∧ (w.state g).executes request ∧
      key2shard request.key = s
  · obtain ⟨request, rfl, executed, here⟩ := changes
    rw [ShardKV.valueAfter, if_pos ⟨executed, here⟩]
    subst here
    exact (owned.covers numbered steady nonzero executed.1).trans (covers_record executed)
  · rw [owned.valueAfter_kv noReturn numbered steady nonzero sourced
      fun request is executed here => changes ⟨request, is, executed, here⟩]
    exact Covers.refl _

/-- Every executed write is known wherever its shard is, and so is not executed
again. -/
structure Once (setting : Setting) (as : List Action) (w : World) : Prop where
  remembers : ∀ {g p request}, ExecutedAt w g p request →
    Knows (ghostAfter setting (key2shard request.key) as).2.table request
  unique : ∀ {g h p q first second}, ExecutedAt w g p first → ExecutedAt w h q second →
    first.clientId = second.clientId → first.commandId = second.commandId → g = h ∧ p = q

theorem Once.follows (once : Once setting as w) (run : World.after setting as = some w)
    (follows : Follows setting w w') (next : w.step setting a = some w')
    (none : w.committed a = none) : Once setting (as ++ [a]) w' where
  remembers executed := by
    rw [ghostAfter, observe_concat _ run next, track, none]
    exact once.remembers (executed.follows follows)
  unique first second := once.unique (first.follows follows) (second.follows follows)

/-- The write that is executed now was not executed before. -/
theorem Once.not_again (once : Once setting as w) (noReturn : setting.NoReturn)
    (numbered : setting.Numbered) (run : World.after setting as = some w) (nonzero : h ≠ 0)
    (before : ExecutedAt w g p request) : ¬ (w.state h).executes request := by
  intro executed
  have owned := owned_of_noReturn noReturn numbered run (key2shard request.key)
  have covers := owned.covers numbered (steady_after numbered run) nonzero executed.1
  exact ((once.remembers before).mono covers).not_executes before.2.1 executed

theorem Once.commit (once : Once setting as w) (noReturn : setting.NoReturn)
    (numbered : setting.Numbered) (run : World.after setting as = some w) (logged : Logged w)
    (identified : Identified w.requests) (found : (w.group g).proposed[i]? = some command)
    (commit : w.commit g i = some w') (next : w.step setting a = some w')
    (commits : w.committed a = some (g, command)) : Once setting (as ++ [a]) w' := by
  have steady := steady_after numbered run
  have nonzero := (commit_log found commit).1
  have sourced := steady.traced.proposed g command (List.mem_of_getElem? found)
  have again {h q first second} (before : ExecutedAt w h q first) (is : command = .operation second)
      (executes : (w.state g).executes second) (client : first.clientId = second.clientId)
      (id : first.commandId = second.commandId) : False := by
    subst is
    have member := logged h first (List.mem_of_getElem? before.1)
    have same := identified first member second sourced client id
    subst same
    exact once.not_again noReturn numbered run nonzero before executes
  refine ⟨fun {h q request} executed => ?_, fun {h h' q q' first second} left right client id => ?_⟩
  · rw [ghostAfter, observe_concat _ run next, track, commits]
    simp only
    rcases executed.commit found commit with old | ⟨_, _, is, writes, executes⟩
    · have owned := owned_of_noReturn noReturn numbered run (key2shard request.key)
      exact (once.remembers old).mono
        (owned.covers_valueAfter noReturn numbered steady nonzero sourced)
    · subst is
      rw [ShardKV.valueAfter, if_pos ⟨executes, rfl⟩]
      exact knows_record writes
  · rcases left.commit found commit with old | ⟨atLeft, posLeft, is, writes, executes⟩
    · rcases right.commit found commit with old' | ⟨_, _, is', _, executes'⟩
      · exact once.unique old old' client id
      · exact (again old is' executes' client id).elim
    · rcases right.commit found commit with old' | ⟨atRight, posRight, _⟩
      · exact (again old' is executes client.symm id.symm).elim
      · exact ⟨atLeft.trans atRight.symm, posLeft.trans posRight.symm⟩

theorem once_initial (setting : Setting) : Once setting [] World.initial where
  remembers executed := by cases executed.1
  unique executed := by cases executed.1

theorem once_after (noReturn : setting.NoReturn) (numbered : setting.Numbered)
    (run : World.after setting as = some w) (identified : Identified w.requests) :
    Once setting as w := by
  refine (exec_history (P := fun bs u => Logged u ∧ (Identified u.requests → Once setting bs u))
    ⟨logged_initial, fun _ => once_initial setting⟩ ?_ run).2 identified
  rintro bs u a v before ⟨logged, once⟩ next
  have traced := (steady_after numbered before).traced
  refine ⟨logged.step numbered traced next, fun identified => ?_⟩
  have fewer : Identified u.requests := fun first inFirst second inSecond =>
    have more := (grows_step numbered next).requests.subset
    identified first (more inFirst) second (more inSecond)
  rcases step_committed numbered next with ⟨follows, none⟩ | ⟨g, i, command, found, commit, commits⟩
  · exact (once fewer).follows before follows next none
  · exact (once fewer).commit noReturn numbered before logged fewer found commit next commits

end World

end DistSys.ShardKv
