import DistSys.Raft.Durability

namespace DistSys.Raft

variable {n : Nat} {C : Type} {A : World n C} {c c' : Cluster n C} {rf rf' : Raft n C}
variable {s : Fin n} {as : List (Action n C)} {a : Action n C} {d d' : Delivery n C}
variable {service : List (ServiceEvent C)} {msgs : List (ApplyMsg C)} {v index : Int}

/-- The messages are the commands of consecutive indices after `v`. -/
def Follows (v : Int) : List (ApplyMsg C) → Prop
  | [] => True
  | .command _ index _ :: rest => index = v + 1 ∧ Follows index rest
  | .snapshot _ _ _ :: _ => False

theorem follows_collect (rf : Raft n C) (i : Int) (count : Nat) :
    Follows (i - 1) (rf.collect i count) := by
  induction count generalizing i with
  | zero => trivial
  | succ count ih =>
    unfold collect
    split
    next => trivial
    next entry _ =>
      refine ⟨by omega, ?_⟩
      have rest := ih (i + 1)
      rwa [show i + 1 - 1 = i by omega] at rest

theorem hasReceived_append {event : ServiceEvent C} :
    hasReceived (service ++ [event]) index = true ↔ hasReceived service index = true ∨
      ∃ command term, event = .received (.command command index term) := by
  unfold hasReceived
  rw [List.any_append, Bool.or_eq_true]
  refine or_congr_right ?_
  rw [List.any_cons, List.any_nil, Bool.or_false]
  split
  next command i term =>
    rw [beq_iff_eq]
    constructor
    · rintro rfl
      exact ⟨command, term, rfl⟩
    · rintro ⟨_, _, ⟨⟩⟩
      rfl
  next other =>
    simp only [Bool.false_eq_true, false_iff]
    rintro ⟨command, term, rfl⟩
    exact other command index term rfl

/-- Where a service stands that started at `v`: at the last command, or at the
last snapshot that was accepted. There is no answer once a command has come that
is not the next one. -/
def position (v : Int) : List (ServiceEvent C) → Option Int
  | [] => some v
  | .received (.command _ index _) :: rest => if index = v + 1 then position index rest else none
  | .received (.snapshot _ _ _) :: rest => position v rest
  | .condInstalled index true :: rest => position index rest
  | .condInstalled _ false :: rest => position v rest

theorem position_append (v : Int) (service rest : List (ServiceEvent C)) :
    position v (service ++ rest) = (position v service).bind fun w => position w rest := by
  induction service generalizing v with
  | nil => rfl
  | cons event service ih =>
    match event with
    | .received (.command _ index _) =>
      simp only [List.cons_append, position]
      split
      next => exact ih index
      next => rfl
    | .received (.snapshot _ _ _) => exact ih v
    | .condInstalled index true => exact ih index
    | .condInstalled _ false => exact ih v

/-- A batch holds the committed commands after the apply position, in order. -/
structure InOrder (rf : Raft n C) (batch : Batch C) : Prop where
  follows : Follows (batch.lastSent - batch.msgs.length) batch.msgs
  lastSent : batch.lastSent ≤ rf.commitIndex
  first : rf.lastIncludedIndex ≤ rf.lastApplied → batch.lastSent - batch.msgs.length = rf.lastApplied

/-- What a critical section leaves that ran the apply loop of a peer in state
`rf` up to the next release of the mutex. -/
structure Looped (rf : Raft n C) (result : Raft n C × Option (Batch C)) : Prop where
  commit : result.1.commitIndex = rf.commitIndex
  applied : result.1.lastApplied = rf.lastApplied
  batch : ∀ batch, result.2 = some batch → result.1.applying = true ∧ InOrder rf batch

theorem looped_applyLoop (rf : Raft n C) (applying : rf.applying = true) : Looped rf rf.applyLoop := by
  rcases applyLoop_cases rf with ends | ⟨_, start, stop, _, order, first, committed, _, sends⟩
  · rw [ends]
    exact ⟨rfl, rfl, fun _ absent => by cases absent⟩
  · rw [sends]
    refine ⟨rfl, rfl, ?_⟩
    rintro batch ⟨⟩
    have length := length_collect_le rf start (stop - start + 1).toNat
    have follows := follows_collect rf start (stop - start + 1).toNat
    generalize rf.collect start (stop - start + 1).toNat = msgs at length follows ⊢
    have back : start - 1 + (msgs.length : Int) - msgs.length = start - 1 := by omega
    refine ⟨applying, ?_, ?_, fun base => ?_⟩
    · simp only [back]
      exact follows
    · simp only
      omega
    · have start' := first base
      simp only
      omega

/-- A critical section that may end in `applyCommittedEntries` starts a batch
only when there is none under way. -/
theorem Advances.cases {result : Raft n C × Option (Batch C)} (advances : Advances rf result) :
    rf.commitIndex ≤ result.1.commitIndex ∧ result.1.lastApplied = rf.lastApplied ∧
      (result.2 = none ∧ (rf.applying = true → result.1.applying = true) ∨
        ∃ batch rf₁, result.2 = some batch ∧ Steady rf rf₁ ∧ rf.applying = false ∧
          result.1.applying = true ∧ result.1.commitIndex = rf₁.commitIndex ∧ InOrder rf₁ batch) := by
  obtain ⟨rf₁, steady, rfl | rfl⟩ := advances
  · exact ⟨steady.commit, steady.applied, Or.inl ⟨rfl, fun on => steady.applying.trans on⟩⟩
  unfold applyCommittedEntries
  split
  next on => exact ⟨steady.commit, steady.applied, Or.inl ⟨rfl, fun _ => on⟩⟩
  next off =>
    have off' : rf.applying = false := by
      rw [← steady.applying]
      simpa using off
    split
    next =>
      refine ⟨steady.commit, steady.applied, Or.inl ⟨rfl, fun on => ?_⟩⟩
      rw [off'] at on
      cases on
    next =>
      have loop := looped_applyLoop { rf₁ with applying := true } rfl
      refine ⟨steady.commit.trans loop.commit.ge, loop.applied.trans steady.applied, ?_⟩
      cases started : ({ rf₁ with applying := true } : Raft n C).applyLoop.2 with
      | none =>
        refine Or.inl ⟨rfl, fun on => ?_⟩
        rw [off'] at on
        cases on
      | some batch =>
        obtain ⟨on, order⟩ := loop.batch batch started
        exact Or.inr ⟨batch, rf₁, rfl, steady, off', on, loop.commit,
          ⟨order.follows, order.lastSent, order.first⟩⟩

/-- Back from a batch, `applyCommittedEntries` stops without a trace when a
snapshot is in flight. -/
theorem applyResume_cases (rf : Raft n C) (lastSent : Int) (applying : rf.applying = true) :
    rf.snapshotInFlight = true ∧ rf.applyResume lastSent = ({ rf with applying := false }, none) ∨
      rf.snapshotInFlight = false ∧
        Looped { rf with lastApplied := max rf.lastApplied lastSent } (rf.applyResume lastSent) := by
  unfold applyResume
  split
  next flight => exact Or.inl ⟨flight, rfl⟩
  next clear =>
    refine Or.inr ⟨by simpa using clear, ?_⟩
    have higher : (if rf.lastApplied < lastSent then lastSent else rf.lastApplied) =
        max rf.lastApplied lastSent := by
      split <;> omega
    rw [higher]
    exact looped_applyLoop { rf with lastApplied := max rf.lastApplied lastSent } applying

/-- What has been received and what is being sent lies within the committed
part of the log, and the batch under way is in order. -/
structure Lined (d : Delivery n C) : Prop where
  received : ∀ index, hasReceived d.service index = true → index ≤ d.rf.commitIndex
  follows : ∀ batch, d.batch = some batch → Follows (batch.lastSent - batch.msgs.length) batch.msgs
  lastSent : ∀ batch, d.batch = some batch → batch.lastSent ≤ d.rf.commitIndex
  applying : ∀ batch, d.batch = some batch → d.rf.applying = true

theorem lined_idle (idle : d.batch = none)
    (received : ∀ index, hasReceived d.service index = true → index ≤ d.rf.commitIndex) : Lined d := by
  have absent : ∀ batch, d.batch ≠ some batch := by
    intro batch here
    rw [idle] at here
    cases here
  exact ⟨received, fun _ here => absurd here (absent _), fun _ here => absurd here (absent _),
    fun _ here => absurd here (absent _)⟩

theorem lined_boot [Inhabited C] (s : Fin n) (persister : Persister C) : Lined (boot s persister).delivery :=
  lined_idle rfl (by rintro index ⟨⟩)

/-- A later commit position and the same batch under way. -/
theorem Lined.setRaft (lined : Lined d) (further : d.rf.commitIndex ≤ rf'.commitIndex)
    (applying : d.rf.applying = true → rf'.applying = true) : Lined { d with rf := rf' } where
  received index here := (lined.received index here).trans further
  follows := lined.follows
  lastSent batch here := (lined.lastSent batch here).trans further
  applying batch here := applying (lined.applying batch here)

theorem Lined.observe (lined : Lined d) {event : ServiceEvent C}
    (committed : ∀ command index term, event = .received (.command command index term) →
      index ≤ d.rf.commitIndex) : Lined { d with service := d.service ++ [event] } where
  received index here := by
    rcases hasReceived_append.mp here with old | ⟨command, term, new⟩
    · exact lined.received index old
    · exact committed command index term new
  follows := lined.follows
  lastSent := lined.lastSent
  applying := lined.applying

variable [Inhabited C]

theorem snapshot_applying (rf : Raft n C) (index : Int) (bytes : List UInt8) :
    (rf.snapshot index bytes).applying = rf.applying := by
  rcases snapshot_cases rf index bytes with same | ⟨_, _, _, _, _, new⟩
  · rw [same]
  · rw [new]
    rfl

theorem condInstallSnapshot_lined (rf : Raft n C) (term index : Int) (data : Blob C) :
    rf.commitIndex ≤ (rf.condInstallSnapshot term index data).1.commitIndex ∧
      (rf.condInstallSnapshot term index data).1.applying = rf.applying := by
  rcases condInstallSnapshot_cases rf term index data with ⟨_, same⟩ | ⟨_, new⟩
  · rw [same]
    exact ⟨le_rfl, rfl⟩
  · rw [new]
    refine ⟨?_, rfl⟩
    rw [rebase_commitIndex]
    exact le_max_left _ _

omit [Inhabited C] in
theorem Lined.resume {lastSent : Int} {answer : Option (Nat × AppendEntryReply)} (lined : Lined d)
    (under : d.batch = some ⟨[], lastSent, answer⟩) :
    Lined { d with
      rf := (d.rf.applyResume lastSent).1
      batch := Cluster.nextBatch none (d.rf.applyResume lastSent).2 answer } := by
  rcases applyResume_cases d.rf lastSent (lined.applying _ under) with ⟨_, stops⟩ | ⟨_, loop⟩
  · rw [stops]
    exact lined_idle rfl lined.received
  · cases started : (d.rf.applyResume lastSent).2 with
    | none =>
      exact lined_idle rfl fun index here => (lined.received index here).trans loop.commit.ge
    | some batch =>
      obtain ⟨on, order⟩ := loop.batch batch started
      refine ⟨fun index here => (lined.received index here).trans loop.commit.ge, ?_, ?_, ?_⟩
      · rintro _ ⟨⟩
        exact order.follows
      · rintro _ ⟨⟩
        exact order.lastSent.trans loop.commit.ge
      · exact fun _ _ => on

theorem Effect.lined (effect : Effect a s d d') (lined : Lined d) : Lined d' := by
  cases effect with
  | quiet steady => exact lined.setRaft steady.commit fun on => steady.applying.trans on
  | @advance result answer advances =>
    obtain ⟨further, _, ⟨none, on⟩ | ⟨batch, rf₁, started, _, _, on, commit, order⟩⟩ := advances.cases
    · rw [none]
      exact lined.setRaft further on
    · rw [started]
      refine ⟨fun index here => (lined.received index here).trans further, ?_, ?_, fun _ _ => on⟩
      · rintro _ ⟨⟩
        exact order.follows
      · rintro _ ⟨⟩
        exact order.lastSent.trans commit.ge
  | offer => exact lined.observe (by rintro _ _ _ ⟨⟩)
  | @apply msg msgs lastSent answer under =>
    have follows := lined.follows _ under
    have committed := lined.lastSent _ under
    have length : ((msg :: msgs).length : Int) = msgs.length + 1 := by
      rw [List.length_cons]; push_cast; rfl
    cases msg with
    | snapshot => exact follows.elim
    | command command index term =>
      obtain ⟨value, rest⟩ := follows
      simp only at value committed
      have sent : Lined { d with batch := some ⟨msgs, lastSent, answer⟩ } := by
        refine ⟨lined.received, ?_, ?_, fun _ _ => lined.applying _ under⟩
        · rintro _ ⟨⟩
          rwa [show lastSent - (msgs.length : Int) = index by omega]
        · rintro _ ⟨⟩
          exact committed
      refine sent.observe ?_
      rintro _ _ _ ⟨⟩
      simp only
      omega
  | resume act under => exact lined.resume under
  | @compact index bytes act received =>
    exact lined.setRaft (commitIndex_le_snapshot d.rf index bytes)
      fun on => (snapshot_applying d.rf index bytes).trans on
  | @install event data term index act found =>
    obtain ⟨further, same⟩ := condInstallSnapshot_lined d.rf term index data
    refine Lined.observe (lined.setRaft further fun on => same.trans on) ?_
    rintro _ _ _ ⟨⟩
  | @reboot rf' _ origin => exact lined_boot s rf'.persister

theorem Cluster.lined (run : Cluster.after n C as = some c) (s : Fin n) :
    Lined (c.server s).delivery := by
  refine exec_history (P := fun _ u => Lined (u.server s).delivery) (lined_boot s makePersister) ?_ run
  intro bs u a v before lined next
  obtain ⟨A, rel⟩ := Cluster.reached before
  obtain ⟨t, others, effect⟩ := rel.affects next
  by_cases here : s = t
  · subst here
    exact effect.lined lined
  · rw [others s here]
    exact lined

end DistSys.Raft
