import DistSys.Raft.StaleSnapshot

namespace DistSys.Raft

variable {n : Nat} {C : Type} {c c' : Cluster n C} {s : Fin n}
variable {as : List (Action n C)} {a : Action n C} {d : Delivery n C} {rf' : Raft n C}

/-- How many messages of the batch under way are still to be sent. -/
def unsent (d : Delivery n C) : Nat :=
  match d.batch with
  | none => 0
  | some batch => batch.msgs.length

theorem unsent_batch {batch : Sending C} (under : d.batch = some batch) : unsent d = batch.msgs.length := by
  unfold unsent
  rw [under]

/-- A batch is collected at server `s` between two states. -/
def Collects (c c' : Cluster n C) (s : Fin n) : Prop :=
  unsent (c.server s).delivery = 0 ∧ 0 < unsent (c'.server s).delivery

instance (c c' : Cluster n C) (s : Fin n) : Decidable (Collects c c' s) :=
  inferInstanceAs (Decidable (_ ∧ _))

/-- The service has received its commands in order, and the messages that are still to be
sent go on from where it stands. -/
def Positioned (d : Delivery n C) : Prop :=
  ∃ v, position d.bootIndex d.service = some v ∧
    ∀ batch, d.batch = some batch → batch.msgs ≠ [] → v = batch.lastSent - batch.msgs.length

theorem Positioned.ne_none (positioned : Positioned d) : position d.bootIndex d.service ≠ none := by
  obtain ⟨v, stands, _⟩ := positioned
  rw [stands]
  exact Option.some_ne_none v

/-- An event that leaves the service where it stands. -/
theorem Positioned.observe (positioned : Positioned d) (rf' : Raft n C) {event : ServiceEvent C}
    (still : ∀ v ∈ position d.bootIndex d.service, position v [event] = some v) :
    Positioned { d with rf := rf', service := d.service ++ [event] } := by
  obtain ⟨v, stands, goesOn⟩ := positioned
  refine ⟨v, ?_, goesOn⟩
  rw [position_append, stands]
  exact still v stands

/-- A batch is collected, if any, when the service stands at the apply position. -/
theorem Positioned.collect (positioned : Positioned d) {batch : Option (Sending C)}
    (first : ∀ sending, batch = some sending → sending.lastSent - sending.msgs.length = rf'.lastApplied)
    (stands : 0 < unsent { d with rf := rf', batch := batch } →
      position d.bootIndex d.service = some rf'.lastApplied) :
    Positioned { d with rf := rf', batch := batch } := by
  obtain ⟨v, here, _⟩ := positioned
  refine ⟨v, here, fun sending under pending => ?_⟩
  have some : 0 < unsent { d with rf := rf', batch := batch } := by
    rw [unsent_batch under]
    exact List.length_pos_iff.mpr pending
  rw [first sending under]
  exact Option.some.inj (here.symm.trans (stands some))

theorem Positioned.advance {result : Raft n C × Option (Batch C)} (positioned : Positioned d)
    (lined : Lined d) (base : d.rf.lastIncludedIndex ≤ d.rf.lastApplied)
    (advances : Advances d.rf result) (answer : Option (Nat × AppendEntryReply))
    (stands : unsent d = 0 →
      0 < unsent { d with rf := result.1, batch := Cluster.nextBatch d.batch result.2 answer } →
      position d.bootIndex d.service = some result.1.lastApplied) :
    Positioned { d with rf := result.1, batch := Cluster.nextBatch d.batch result.2 answer } := by
  obtain ⟨_, same, ⟨none, _⟩ | ⟨batch, rf₁, started, steady, off, _, _, order⟩⟩ := advances.cases
  · rw [none]
    exact positioned
  · have idle : d.batch = none := by
      cases under : d.batch with
      | none => rfl
      | some sending =>
        rw [lined.applying sending under] at off
        cases off
    have first := order.first (by rw [steady.base, steady.applied]; exact base)
    rw [steady.applied, ← same] at first
    refine positioned.collect ?_ (stands (by rw [unsent, idle]))
    rw [started, idle]
    rintro _ ⟨⟩
    exact first

theorem Positioned.resume {lastSent : Int} {answer : Option (Nat × AppendEntryReply)}
    (positioned : Positioned d) (lined : Lined d) (base : d.rf.lastIncludedIndex ≤ d.rf.lastApplied)
    (under : d.batch = some ⟨[], lastSent, answer⟩)
    (stands : unsent d = 0 →
      0 < unsent { d with
        rf := (d.rf.applyResume lastSent).1
        batch := Cluster.nextBatch none (d.rf.applyResume lastSent).2 answer } →
      position d.bootIndex d.service = some (d.rf.applyResume lastSent).1.lastApplied) :
    Positioned { d with
      rf := (d.rf.applyResume lastSent).1
      batch := Cluster.nextBatch none (d.rf.applyResume lastSent).2 answer } := by
  refine positioned.collect ?_ (stands (unsent_batch under))
  rcases applyResume_cases d.rf lastSent (lined.applying _ under) with ⟨_, stops⟩ | ⟨_, loop⟩
  · rw [stops]
    rintro _ ⟨⟩
  · cases started : (d.rf.applyResume lastSent).2 with
    | none => rintro _ ⟨⟩
    | some batch =>
      rintro _ ⟨⟩
      rw [loop.applied]
      exact (loop.batch batch started).2.first (base.trans (le_max_left _ _))

theorem Positioned.apply {msg : ApplyMsg C} {msgs : List (ApplyMsg C)} {lastSent : Int}
    {answer : Option (Nat × AppendEntryReply)} (positioned : Positioned d) (lined : Lined d)
    (under : d.batch = some ⟨msg :: msgs, lastSent, answer⟩) :
    Positioned { d with
      batch := some ⟨msgs, lastSent, answer⟩, service := d.service ++ [.received msg] } := by
  obtain ⟨v, stands, goesOn⟩ := positioned
  have here := goesOn _ under (List.cons_ne_nil _ _)
  have follows := lined.follows _ under
  simp only [List.length_cons] at here follows
  cases msg with
  | snapshot => exact follows.elim
  | command command index term =>
    have next : index = v + 1 := by
      rw [here]
      exact follows.1
    refine ⟨index, ?_, ?_⟩
    · rw [position_append, stands]
      exact if_pos next
    · rintro _ ⟨⟩ _
      simp only
      omega

variable [Inhabited C]

theorem Positioned.install {data : Blob C} {term index : Int} (positioned : Positioned d)
    (clear : d.rf.lastIncludedIndex < index →
      unsent d = 0 ∨ position d.bootIndex d.service = some index) :
    Positioned { d with
      rf := (d.rf.condInstallSnapshot term index data).1
      service := d.service ++ [.condInstalled index (d.rf.condInstallSnapshot term index data).2] } := by
  rcases condInstallSnapshot_cases d.rf term index data with ⟨_, refused⟩ | ⟨above, accepted⟩
  · rw [refused]
    exact positioned.observe d.rf fun _ _ => rfl
  have verdict : (d.rf.condInstallSnapshot term index data).2 = true := by rw [accepted]
  rw [verdict]
  rcases clear above with sent | same
  · obtain ⟨v, stands, _⟩ := positioned
    refine ⟨index, ?_, fun batch under pending => ?_⟩
    · rw [position_append, stands]
      rfl
    · have none : batch.msgs.length = 0 := (unsent_batch under).symm.trans sent
      exact absurd (List.eq_nil_of_length_eq_zero none) pending
  · refine positioned.observe _ fun v stands => ?_
    rw [← Option.some.inj (same.symm.trans stands)]
    rfl

theorem positioned_boot (s : Fin n) (persister : Persister C) : Positioned (boot s persister).delivery :=
  ⟨_, rfl, by rintro batch ⟨⟩⟩

/-- A snapshot that is ahead of the base comes when no message of a batch is still to be sent,
or brings its service to where it stands. A batch is collected only when the service
stands at the apply position. -/
def Undisturbed (c : Cluster n C) (a : Action n C) : Prop :=
  (∀ call ∈ installing c a, (c.server call.1).rf.lastIncludedIndex < call.2 →
    unsent (c.server call.1).delivery = 0 ∨
      position (c.server call.1).bootIndex (c.server call.1).service = some call.2) ∧
  ∀ c' ∈ c.step a, ∀ s, Collects c c' s →
    position (c'.server s).bootIndex (c'.server s).service = some (c'.server s).rf.lastApplied

instance (c : Cluster n C) (a : Action n C) : Decidable (Undisturbed c a) := by
  unfold Undisturbed
  infer_instance

theorem Effect.positioned (effect : Effect a s (c.server s).delivery (c'.server s).delivery)
    (positioned : Positioned (c.server s).delivery) (lined : Lined (c.server s).delivery)
    (base : (c.server s).rf.lastIncludedIndex ≤ (c.server s).rf.lastApplied)
    (calm : Undisturbed c a) (next : c.step a = some c') : Positioned (c'.server s).delivery := by
  have collects := calm.2 c' next s
  rw [Collects] at collects
  change _ → position (c'.server s).delivery.bootIndex (c'.server s).delivery.service =
    some (c'.server s).delivery.rf.lastApplied at collects
  generalize (c'.server s).delivery = d' at effect collects
  cases effect with
  | quiet | compact => exact positioned
  | advance answer advances =>
    exact positioned.advance lined base advances answer fun none some => collects ⟨none, some⟩
  | offer => exact positioned.observe _ fun _ _ => rfl
  | apply under => exact positioned.apply lined under
  | resume act under =>
    exact positioned.resume lined base under fun none some => collects ⟨none, some⟩
  | @install event data term index act found =>
    subst act
    exact positioned.install (calm.1 (s, index) (installing_eq found))
  | @reboot rf' => exact positioned_boot s rf'.persister

end DistSys.Raft
