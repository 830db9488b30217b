import DistSys.ShardKv.Execute

namespace DistSys.ShardKv

/-- What `Start` returned to a call. -/
def ExecuteState.started : ExecuteState → Option (Nat × Nat)
  | .calling => none
  | .registering index term => some (index, term)
  | .waiting index term _ => some (index, term)
  | .checking index term _ => some (index, term)
  | .returned started _ => started

namespace Node

variable {n n' : Node} {command : Command} {i index term : Nat} {call : ExecuteCall}
variable {response : CommandResponse}

/-- A response that the applier hands out: it was computed for this index, in a
term that no call for the index has passed. -/
def Announced (n : Node) (index : Nat) (response : CommandResponse) : Prop :=
  index ≤ n.rf.delivered ∧ ∃ term command, ⟨index, term, command, response⟩ ∈ n.computed ∧
    term ≤ n.rf.term ∧ ∀ call ∈ n.calls, ∀ t, call.state.started = some (index, t) → t ≤ term

/-- Nothing that was once there changes, and calls start behind what has been
delivered. -/
structure Extends (n n' : Node) : Prop where
  entries : ∀ {i t c}, n.rf.entries i t = some c → n'.rf.entries i t = some c
  term : n.rf.term ≤ n'.rf.term
  delivered : n.rf.delivered ≤ n'.rf.delivered
  computed : n.computed ⊆ n'.computed
  channels : ∀ {channel i : Nat} {b : Option CommandResponse}, n.channels[channel]? = some ⟨i, b⟩ →
    ∃ b', n'.channels[channel]? = some ⟨i, b'⟩
  starts : ∀ call ∈ n'.calls, ∀ i t, call.state.started = some (i, t) →
    (∃ old ∈ n.calls, old.state.started = some (i, t)) ∨ n.rf.delivered < i

theorem Announced.mono (announced : Announced n index response) (ext : Extends n n') :
    Announced n' index response := by
  obtain ⟨passed, term, command, member, reached, latest⟩ := announced
  refine ⟨passed.trans ext.delivered, term, command, ext.computed member, reached.trans ext.term, ?_⟩
  intro call inCalls t started
  rcases ext.starts call inCalls index t started with ⟨old, inOld, same⟩ | later
  · exact latest old inOld t same
  · omega

/-- The entry that a call has appended. -/
def Owns (n : Node) (command : Command) (index term : Nat) : Prop :=
  n.rf.entries index term = some command ∧ term ≤ n.rf.term

theorem Owns.mono (owns : Owns n command index term) (ext : Extends n n') :
    Owns n' command index term :=
  ⟨ext.entries owns.1, owns.2.trans ext.term⟩

/-- What holds of a call in each of its states. -/
def CallSound (n : Node) (call : ExecuteCall) : Prop :=
  match call.state with
  | .calling => True
  | .registering index term => Owns n call.command index term
  | .waiting index term channel =>
    Owns n call.command index term ∧ ∃ b, n.channels[channel]? = some ⟨index, b⟩
  | .checking index term response =>
    Owns n call.command index term ∧ (response.err = .wrongLeader ∨ Announced n index response)
  | .returned started response =>
    (∀ index term, started = some (index, term) → Owns n call.command index term) ∧
      (response.err ≠ .wrongLeader → ∃ index term, started = some (index, term) ∧
        ⟨index, term, call.command, response⟩ ∈ n.computed)

theorem CallSound.owns (sound : CallSound n call) (started : call.state.started = some (index, term)) :
    Owns n call.command index term := by
  obtain ⟨command, state⟩ := call
  cases state with
  | calling => cases started
  | registering => cases started; exact sound
  | waiting => cases started; exact sound.1
  | checking => cases started; exact sound.1
  | returned => exact sound.1 index term started

theorem CallSound.mono (sound : CallSound n call) (ext : Extends n n') : CallSound n' call := by
  obtain ⟨command, state⟩ := call
  cases state with
  | calling => trivial
  | registering index term => exact Owns.mono sound ext
  | waiting index term channel =>
    obtain ⟨owns, b, found⟩ := sound
    exact ⟨owns.mono ext, ext.channels found⟩
  | checking index term response =>
    obtain ⟨owns, fine⟩ := sound
    exact ⟨owns.mono ext, fine.imp_right fun announced => announced.mono ext⟩
  | returned started response =>
    obtain ⟨owns, fine⟩ := sound
    refine ⟨fun index term is => (owns index term is).mono ext, fun other => ?_⟩
    obtain ⟨index, term, is, member⟩ := fine other
    exact ⟨index, term, is, ext.computed member⟩

def ApplierSound (n : Node) : Prop :=
  match n.applier with
  | .idle => True
  | .applied index term response => index ≤ n.rf.delivered ∧
      ∃ command, ⟨index, term, command, response⟩ ∈ n.computed
  | .sending channel response =>
    ∃ index b, n.channels[channel]? = some ⟨index, b⟩ ∧ Announced n index response

theorem ApplierSound.mono (sound : ApplierSound n) (ext : Extends n n')
    (same : n'.applier = n.applier) : ApplierSound n' := by
  unfold ApplierSound at sound ⊢
  rw [same]
  cases applier : n.applier with
  | idle => trivial
  | applied index term response =>
    rw [applier] at sound
    obtain ⟨passed, command, member⟩ := sound
    exact ⟨passed.trans ext.delivered, command, ext.computed member⟩
  | sending channel response =>
    rw [applier] at sound
    obtain ⟨index, b, found, announced⟩ := sound
    obtain ⟨b', found'⟩ := ext.channels found
    exact ⟨index, b', found', announced.mono ext⟩

/-- The invariant of a server. -/
structure Sound (n : Node) : Prop where
  calls : ∀ call ∈ n.calls, CallSound n call
  applier : ApplierSound n
  computed : ∀ c ∈ n.computed, n.rf.entries c.index c.term = some c.command
  notifyChans : ∀ {index channel : Nat}, n.notifyChans index = some channel →
    ∃ b, n.channels[channel]? = some ⟨index, b⟩
  buffers : ∀ {index response}, ⟨index, some response⟩ ∈ n.channels → Announced n index response

/-- Only what is new has to be looked at. -/
theorem Sound.extend (sound : Sound n) (ext : Extends n n')
    (calls : ∀ call ∈ n'.calls, call ∈ n.calls ∨ CallSound n' call)
    (applier : n'.applier = n.applier ∨ ApplierSound n')
    (computed : ∀ c ∈ n'.computed, c ∈ n.computed ∨ n'.rf.entries c.index c.term = some c.command)
    (notifyChans : ∀ index channel : Nat, n'.notifyChans index = some channel →
      n.notifyChans index = some channel ∨ ∃ b, n'.channels[channel]? = some ⟨index, b⟩)
    (buffers : ∀ index response, ⟨index, some response⟩ ∈ n'.channels →
      ⟨index, some response⟩ ∈ n.channels ∨ Announced n' index response) : Sound n' where
  calls call member := by
    rcases calls call member with old | new
    · exact (sound.calls call old).mono ext
    · exact new
  applier := applier.elim (fun same => sound.applier.mono ext same) id
  computed c member := by
    rcases computed c member with old | new
    · exact ext.entries (sound.computed c old)
    · exact new
  notifyChans := by
    intro index channel found
    rcases notifyChans index channel found with old | new
    · obtain ⟨b, there⟩ := sound.notifyChans old
      exact ext.channels there
    · exact new
  buffers := by
    intro index response member
    rcases buffers index response member with old | new
    · exact (sound.buffers old).mono ext
    · exact new

/-- A step that leaves Raft alone, and in which no call starts. -/
theorem Extends.of_same (rf : n'.rf = n.rf) (computed : n.computed ⊆ n'.computed)
    (channels : ∀ {channel i : Nat} {b : Option CommandResponse},
      n.channels[channel]? = some ⟨i, b⟩ → ∃ b', n'.channels[channel]? = some ⟨i, b'⟩)
    (starts : ∀ call ∈ n'.calls, ∀ i t, call.state.started = some (i, t) →
      ∃ old ∈ n.calls, old.state.started = some (i, t)) : Extends n n' where
  entries found := by rwa [rf]
  term := by rw [rf]
  delivered := by rw [rf]
  computed := computed
  channels := channels
  starts call member i t started := Or.inl (starts call member i t started)

theorem Extends.of_calls (rf : n'.rf = n.rf) (calls : n'.calls = n.calls)
    (computed : n'.computed = n.computed)
    (channels : ∀ {channel i : Nat} {b : Option CommandResponse},
      n.channels[channel]? = some ⟨i, b⟩ → ∃ b', n'.channels[channel]? = some ⟨i, b'⟩) :
    Extends n n' := by
  refine .of_same rf ?_ channels fun call member i t is => ⟨call, ?_, is⟩
  · rw [computed]
    exact List.Subset.refl _
  · rwa [← calls]

/-- A step that leaves the calls and the results of the applier alone. -/
theorem Sound.keep (sound : Sound n) (ext : Extends n n') (calls : n'.calls = n.calls)
    (computed : n'.computed = n.computed) (applier : n'.applier = n.applier ∨ ApplierSound n')
    (notifyChans : ∀ index channel : Nat, n'.notifyChans index = some channel →
      n.notifyChans index = some channel ∨ ∃ b, n'.channels[channel]? = some ⟨index, b⟩)
    (buffers : ∀ index response, ⟨index, some response⟩ ∈ n'.channels →
      ⟨index, some response⟩ ∈ n.channels ∨ Announced n' index response) : Sound n' := by
  refine sound.extend ext (fun call member => Or.inl ?_) applier (fun c member => Or.inl ?_)
    notifyChans buffers
  · rwa [← calls]
  · rwa [← computed]

/-- Raft goes on; the state of the machine may be that of a snapshot. -/
theorem Sound.raft (sound : Sound n) (rf : RaftView)
    (entries : ∀ {i t c}, n.rf.entries i t = some c → rf.entries i t = some c)
    (term : n.rf.term ≤ rf.term) (delivered : n.rf.delivered ≤ rf.delivered) (kv : ShardKV)
    (lastApplied : Nat) : Sound { n with kv := kv, lastApplied := lastApplied, rf := rf } := by
  have ext : Extends n { n with kv := kv, lastApplied := lastApplied, rf := rf } :=
    ⟨entries, term, delivered, List.Subset.refl _, fun there => ⟨_, there⟩,
      fun call member i t is => Or.inl ⟨call, member, is⟩⟩
  exact sound.keep ext rfl rfl (Or.inl rfl) (fun _ _ there => Or.inl there)
    (fun _ _ member => Or.inl member)

/-- One call goes on, and nothing else changes but goroutines that wait to
remove a channel. -/
theorem Sound.setCall (sound : Sound n) {old : ExecuteCall} (found : n.calls[i]? = some old)
    (new : CallSound n call)
    (starts : ∀ started, call.state.started = some started → old.state.started = some started)
    (removing : List Nat) :
    Sound { n.setCall i call with removing := removing } := by
  have ext : Extends n { n.setCall i call with removing := removing } := by
    refine .of_same rfl (List.Subset.refl _) (fun there => ⟨_, there⟩) fun other member j t is => ?_
    rcases List.mem_or_eq_of_mem_set member with same | rfl
    · exact ⟨other, same, is⟩
    · exact ⟨old, List.mem_of_getElem? found, starts _ is⟩
  refine sound.extend ext (fun other member => ?_) (Or.inl rfl) (fun c member => Or.inl member)
    (fun index channel there => Or.inl there) (fun index response member => Or.inl member)
  rcases List.mem_or_eq_of_mem_set member with same | rfl
  · exact Or.inl same
  · exact Or.inr (new.mono ext)

theorem setEntry_self (rf : RaftView) (index term : Nat) (command : Command) :
    (rf.setEntry index term command).entries index term = some command := by
  simp [RaftView.setEntry]

theorem setEntry_of_some {rf : RaftView} {t : Nat} {c : Command} (free : rf.entries index term = none)
    (found : rf.entries i t = some c) (command : Command) :
    (rf.setEntry index term command).entries i t = some c := by
  unfold RaftView.setEntry
  by_cases row : i = index
  · subst row
    have other : t ≠ term := fun same => by
      subst same
      rw [free] at found
      cases found
    simp [other, found]
  · simp [row, found]

/-- Raft gets one more entry. -/
theorem Sound.setEntry (sound : Sound n) (free : n.rf.entries index term = none) (command : Command) :
    Sound { n with rf := n.rf.setEntry index term command } :=
  sound.raft _ (fun found => setEntry_of_some free found command) (Nat.le_refl _) (Nat.le_refl _) _ _

theorem Sound.callStart (sound : Sound n) (next : n.callStart i index = some n') : Sound n' := by
  unfold Node.callStart at next
  split at next
  next command found =>
    split at next
    next =>
      split at next
      next valid =>
        cases next
        -- The entry comes first, and the call that has appended it afterwards.
        have appended := sound.setEntry valid.2 command
        have ext : Extends { n with rf := n.rf.setEntry index n.rf.term command }
            { n.setCall i ⟨command, .registering index n.rf.term⟩ with
              rf := n.rf.setEntry index n.rf.term command } := by
          refine ⟨fun there => there, Nat.le_refl _, Nat.le_refl _, List.Subset.refl _,
            fun there => ⟨_, there⟩, fun other member j t is => ?_⟩
          rcases List.mem_or_eq_of_mem_set member with same | rfl
          · exact Or.inl ⟨other, same, is⟩
          · cases is
            exact Or.inr valid.1
        refine appended.extend ext (fun other member => ?_) (Or.inl rfl)
          (fun c member => Or.inl member) (fun index channel there => Or.inl there)
          (fun index response member => Or.inl member)
        rcases List.mem_or_eq_of_mem_set member with same | rfl
        · exact Or.inl same
        · exact Or.inr ⟨setEntry_self _ _ _ _, Nat.le_refl _⟩
      next => cases next
    next =>
      cases next
      have failed : CallSound n ⟨command, .returned none ⟨.wrongLeader, []⟩⟩ :=
        ⟨fun _ _ is => by (cases is), fun other => absurd rfl other⟩
      exact sound.setCall found failed (fun _ is => by cases is) n.removing
  next => cases next

/-- The channel of an index is the one that was made for it. -/
theorem Sound.getNotifyChan (sound : Sound n) (index : Nat) :
    Sound (n.getNotifyChan index).1 ∧ (n.getNotifyChan index).1.calls = n.calls ∧
      (n.getNotifyChan index).1.rf = n.rf ∧ (n.getNotifyChan index).1.computed = n.computed ∧
      ∃ b, (n.getNotifyChan index).1.channels[(n.getNotifyChan index).2]? = some ⟨index, b⟩ := by
  unfold Node.getNotifyChan
  cases found : n.notifyChans index with
  | some channel => exact ⟨sound, rfl, rfl, rfl, sound.notifyChans found⟩
  | none =>
    have here : (n.channels ++ [⟨index, none⟩])[n.channels.length]? = some ⟨index, none⟩ :=
      List.getElem?_concat_length
    refine ⟨?_, rfl, rfl, rfl, none, here⟩
    have ext : Extends n { n with
        notifyChans := Function.update n.notifyChans index (some n.channels.length)
        channels := n.channels ++ [⟨index, none⟩] } := by
      refine .of_calls rfl rfl rfl fun there => ?_
      exact ⟨_, by rwa [List.getElem?_append_left (List.getElem?_eq_some_iff.mp there).1]⟩
    refine sound.keep ext rfl rfl (Or.inl rfl) (fun other channel there => ?_)
      (fun other response member => ?_)
    · simp only at there ⊢
      by_cases same : other = index
      · subst same
        rw [Function.update_self] at there
        cases there
        exact Or.inr ⟨none, here⟩
      · rw [Function.update_of_ne same] at there
        exact Or.inl there
    · rcases List.mem_append.mp member with old | new
      · exact Or.inl old
      · cases List.mem_singleton.mp new

theorem Sound.register (sound : Sound n) (next : n.register i = some n') : Sound n' := by
  unfold Node.register at next
  split at next
  next command index term found _ =>
    cases next
    obtain ⟨made, calls, rf, _, channel⟩ := sound.getNotifyChan index
    have owns : Owns n command index term := sound.calls _ (List.mem_of_getElem? found)
    have waits : CallSound (n.getNotifyChan index).1
        ⟨command, .waiting index term (n.getNotifyChan index).2⟩ :=
      ⟨by rw [Owns, rf]; exact owns, channel⟩
    rw [← calls] at found
    exact made.setCall found waits (fun _ is => is) _
  next => cases next

/-- Emptying or filling a buffer leaves the channels in their places. -/
theorem set_channel {channels : List NotifyChan} {channel madeFor : Nat}
    {b b' : Option CommandResponse} (found : channels[channel]? = some ⟨madeFor, b⟩) {other : Nat}
    {c : Option CommandResponse} (there : channels[other]? = some ⟨i, c⟩) :
    ∃ c', (channels.set channel ⟨madeFor, b'⟩)[other]? = some ⟨i, c'⟩ := by
  by_cases same : other = channel
  · subst same
    rw [found] at there
    cases there
    exact ⟨b', by rw [List.getElem?_set_self (List.getElem?_eq_some_iff.mp found).1]⟩
  · exact ⟨c, by rw [List.getElem?_set_ne (Ne.symm same), there]⟩

/-- What a call receives was announced for its index. -/
theorem Sound.receive (sound : Sound n) (next : n.receive i = some n') : Sound n' := by
  unfold Node.receive at next
  split at next
  next command index term channel found =>
    split at next
    next madeFor response there =>
      cases next
      obtain ⟨owns, b, mine⟩ : CallSound n ⟨command, .waiting index term channel⟩ :=
        sound.calls _ (List.mem_of_getElem? found)
      rw [there] at mine
      cases mine
      have announced := sound.buffers (List.mem_of_getElem? there)
      have checks : CallSound n ⟨command, .checking index term response⟩ :=
        ⟨owns, Or.inr announced⟩
      have called := sound.setCall found checks (fun _ is => is) (n.removing ++ [index])
      have ext : Extends { n.setCall i ⟨command, .checking index term response⟩ with
            removing := n.removing ++ [index] }
          { n.setCall i ⟨command, .checking index term response⟩ with
            channels := n.channels.set channel ⟨index, none⟩
            removing := n.removing ++ [index] } :=
        .of_calls rfl rfl rfl fun other => set_channel there other
      refine called.keep ext rfl rfl (Or.inl rfl) (fun _ _ there => Or.inl there)
        (fun index response member => ?_)
      rcases List.mem_or_eq_of_mem_set member with same | new
      · exact Or.inl same
      · cases new
    next => cases next
  next => cases next

theorem Sound.timeout (sound : Sound n) (next : n.timeout i = some n') : Sound n' := by
  unfold Node.timeout at next
  split at next
  next command index term channel found =>
    cases next
    obtain ⟨owns, _⟩ : CallSound n ⟨command, .waiting index term channel⟩ :=
      sound.calls _ (List.mem_of_getElem? found)
    have checks : CallSound n ⟨command, .checking index term ⟨.wrongLeader, []⟩⟩ :=
      ⟨owns, Or.inl rfl⟩
    exact sound.setCall found checks (fun _ is => is) _
  next => cases next

/-- A response that was announced for an index belongs to the call whose term is
still the current one. -/
theorem Announced.same_term {state : ExecuteState} (announced : Announced n index response)
    (sound : Sound n) (member : ⟨command, state⟩ ∈ n.calls)
    (started : state.started = some (index, n.rf.term)) (owns : Owns n command index n.rf.term) :
    ⟨index, n.rf.term, command, response⟩ ∈ n.computed := by
  obtain ⟨_, term, other, inComputed, reached, latest⟩ := announced
  have same : term = n.rf.term := Nat.le_antisymm reached (latest _ member _ started)
  subst same
  have entry := sound.computed _ inComputed
  simp only at entry
  rw [owns.1] at entry
  cases entry
  exact inComputed

theorem Sound.check (sound : Sound n) (next : n.check i = some n') : Sound n' := by
  unfold Node.check at next
  split at next
  next command index term response found =>
    cases next
    have member := List.mem_of_getElem? found
    obtain ⟨owns, fine⟩ : CallSound n ⟨command, .checking index term response⟩ :=
      sound.calls _ member
    have returns : CallSound n ⟨command, .returned (some (index, term))
        (if n.rf.term ≠ term then { response with err := .wrongLeader } else response)⟩ := by
      refine ⟨fun j t is => by cases is; exact owns, fun other => ⟨index, term, rfl, ?_⟩⟩
      by_cases moved : n.rf.term ≠ term
      · rw [if_pos moved] at other
        exact absurd rfl other
      · rw [if_neg moved] at other ⊢
        have same : term = n.rf.term := (not_not.mp moved).symm
        subst same
        exact (fine.resolve_left other).same_term sound member rfl owns
    exact sound.setCall found returns (fun _ is => is) n.removing
  next => cases next

theorem Sound.remove {j : Nat} (sound : Sound n) (next : n.remove j = some n') : Sound n' := by
  unfold Node.remove at next
  split at next
  next index _ _ =>
    cases next
    have ext : Extends n { n with
        notifyChans := Function.update n.notifyChans index none
        removing := n.removing.eraseIdx j } :=
      .of_calls rfl rfl rfl fun there => ⟨_, there⟩
    exact sound.keep ext rfl rfl (Or.inl rfl) (fun _ _ there => Or.inl (some_of_update_none there))
      (fun _ _ member => Or.inl member)
  next => cases next

/-- The applier has taken the next command. -/
theorem Sound.deliver (sound : Sound n) (next : n.deliver index term = some n') : Sound n' := by
  unfold Node.deliver at next
  split at next
  next command entry idle =>
    split at next
    next behind =>
      split at next
      next =>
        cases next
        exact sound.raft { n.rf with delivered := index } (fun found => found) (Nat.le_refl _) behind.le
          _ _
      next =>
        cases next
        refine sound.extend ⟨fun found => found, Nat.le_refl _, behind.le,
          List.subset_append_left _ _, fun there => ⟨_, there⟩,
          fun call member i t is => Or.inl ⟨call, member, is⟩⟩
          (fun call member => Or.inl member) (Or.inr ?_) (fun c member => ?_)
          (fun index channel there => Or.inl there) (fun index response member => Or.inl member)
        · exact ⟨Nat.le_refl _, command, List.mem_append_right _ (List.mem_singleton.mpr rfl)⟩
        · rcases List.mem_append.mp member with old | new
          · exact Or.inl old
          · rw [List.mem_singleton.mp new]
            exact Or.inr entry
    next => cases next
  next => cases next

theorem Sound.deliverSnapshot {kv : ShardKV} (sound : Sound n)
    (next : n.deliverSnapshot index kv = some n') : Sound n' := by
  unfold Node.deliverSnapshot at next
  split at next
  next =>
    split at next
    next behind =>
      cases next
      exact sound.raft { n.rf with delivered := index } (fun found => found) (Nat.le_refl _) behind _ _
    next => cases next
  next => cases next

/-- The applier announces in the current term, which no call has passed. -/
theorem Sound.announce (sound : Sound n) (next : n.announce = some n') : Sound n' := by
  unfold Node.announce at next
  split at next
  next index term response applied =>
    have fresh := sound.applier
    unfold ApplierSound at fresh
    rw [applied] at fresh
    obtain ⟨passed, command, member⟩ := fresh
    split at next
    next leads =>
      cases next
      obtain ⟨made, calls, rf, computed, b, channel⟩ := sound.getNotifyChan index
      have announced : Announced (n.getNotifyChan index).1 index response := by
        rw [Announced, calls, rf, computed]
        refine ⟨passed, term, command, member, leads.2.le, fun call inCalls t started => ?_⟩
        rw [leads.2]
        have callSound := sound.calls call inCalls
        exact (callSound.owns started).2
      have ext : Extends (n.getNotifyChan index).1 { (n.getNotifyChan index).1 with
          applier := .sending (n.getNotifyChan index).2 response } :=
        .of_calls rfl rfl rfl fun there => ⟨_, there⟩
      exact made.keep ext rfl rfl (Or.inr ⟨index, b, channel, announced.mono ext⟩)
        (fun _ _ there => Or.inl there) (fun _ _ member => Or.inl member)
    next =>
      cases next
      exact sound.keep (.of_calls rfl rfl rfl fun there => ⟨_, there⟩) rfl rfl (Or.inr trivial)
        (fun _ _ there => Or.inl there) (fun _ _ member => Or.inl member)
  next => cases next

theorem Sound.send (sound : Sound n) (next : n.send = some n') : Sound n' := by
  unfold Node.send at next
  split at next
  next channel response sending =>
    split at next
    next madeFor there =>
      cases next
      have announcing := sound.applier
      unfold ApplierSound at announcing
      rw [sending] at announcing
      obtain ⟨index, b, found, announced⟩ := announcing
      rw [there] at found
      cases found
      have ext : Extends n { n with
          channels := n.channels.set channel ⟨madeFor, some response⟩, applier := .idle } :=
        .of_calls rfl rfl rfl fun other => set_channel there other
      refine sound.keep ext rfl rfl (Or.inr trivial) (fun _ _ there => Or.inl there)
        (fun other answer member => ?_)
      rcases List.mem_or_eq_of_mem_set member with same | new
      · exact Or.inl same
      · cases new
        exact Or.inr (announced.mono ext)
    next => cases next
  next => cases next

theorem Sound.step {a : NodeAction} (sound : Sound n) (next : n.step a = some n') : Sound n' := by
  cases a with
  | execute command =>
    cases next
    refine sound.extend (.of_same rfl (List.Subset.refl _) (fun there => ⟨_, there⟩)
      fun call member i t is => ?_) (fun call member => ?_) (Or.inl rfl)
      (fun c member => Or.inl member) (fun index channel there => Or.inl there)
      (fun index response member => Or.inl member)
    · rcases List.mem_append.mp member with old | new
      · exact ⟨call, old, is⟩
      · rw [List.mem_singleton.mp new] at is
        cases is
    · rcases List.mem_append.mp member with old | new
      · exact Or.inl old
      · rw [List.mem_singleton.mp new]
        exact Or.inr trivial
  | start => exact sound.callStart next
  | register => exact sound.register next
  | receive => exact sound.receive next
  | timeout => exact sound.timeout next
  | check => exact sound.check next
  | remove => exact sound.remove next
  | deliver => exact sound.deliver next
  | deliverSnapshot => exact sound.deliverSnapshot next
  | announce => exact sound.announce next
  | send => exact sound.send next
  | replicate index term command =>
    simp only [Node.step] at next
    split at next
    next free =>
      cases next
      exact sound.setEntry free command
    next => cases next
  | elect term isLeader =>
    simp only [Node.step] at next
    split at next
    next later =>
      cases next
      exact sound.raft { n.rf with term := term, isLeader := isLeader } (fun found => found) later
        (Nat.le_refl _) _ _
    next => cases next

theorem sound_start (kv : ShardKV) (rf : RaftView) : Sound (Node.start kv rf) where
  calls _ member := by cases member
  applier := trivial
  computed _ member := by cases member
  notifyChans found := by cases found
  buffers member := by cases member

/-- Whatever a call of `Execute` returns other than ErrWrongLeader is the
response that the applier computed for its own command, at the index and in
the term that `Start` returned. -/
theorem execute_reply_sound {kv : ShardKV} {rf : RaftView} {as : List NodeAction}
    (run : exec Node.step (Node.start kv rf) as = some n) (member : call ∈ n.calls)
    {started : Option (Nat × Nat)} (returned : call.state = .returned started response)
    (other : response.err ≠ .wrongLeader) :
    ∃ index term, started = some (index, term) ∧
      ⟨index, term, call.command, response⟩ ∈ n.computed := by
  have sound := exec_invariant (P := Sound) (sound_start kv rf)
    (fun _ _ _ old next => old.step next) run
  have callSound := sound.calls call member
  unfold CallSound at callSound
  rw [returned] at callSound
  exact callSound.2 other

def emptyView : RaftView := ⟨fun _ _ => none, 0, false, 0⟩

/-- A Get of a shard that the group does not serve. -/
def someGet : CommandRequest := ⟨[97], [], .get, 7, 0⟩

/-- A server leads in term 1 and again in term 2, and both times appends at index
1; the two calls share a channel. -/
def reusedIndex : List NodeAction :=
  [.elect 1 true, .execute .emptyEntry, .start 0 1, .register 0, .elect 2 true,
    .execute (.operation someGet), .start 1 1, .register 1, .deliver 1 2, .announce, .send,
    .receive 1, .check 1]

theorem execute_reply_sound_reused :
    ∃ n call, exec Node.step (Node.start (startServer 1) emptyView) reusedIndex = some n ∧
      call ∈ n.calls ∧ call.state = .returned (some (1, 2)) ⟨.wrongGroup, []⟩ ∧
      ∃ index term, some (1, 2) = some (index, term) ∧
        ⟨index, term, call.command, ⟨.wrongGroup, []⟩⟩ ∈ n.computed := by
  obtain ⟨n, run⟩ := Option.isSome_iff_exists.mp
    (show (exec Node.step (Node.start (startServer 1) emptyView) reusedIndex).isSome = true by decide)
  have found : n.calls[1]? =
      some ⟨.operation someGet, .returned (some (1, 2)) ⟨.wrongGroup, []⟩⟩ := by
    cases run
    rfl
  have member := List.mem_of_getElem? found
  exact ⟨n, _, run, member, rfl, execute_reply_sound run member rfl (by decide)⟩

end Node

end DistSys.ShardKv
