import DistSys.KvRaft.OverRaft

namespace DistSys.KvRaft

/-- The index that a handler got from `Start`, until it has returned. -/
def HandlerState.index : HandlerState → Option Nat
  | .calling => none
  | .registering index _ => some index
  | .waiting index _ _ => some index
  | .leaving index _ => some index
  | .returned => none

/-- The index under which a handler has got a channel. -/
def HandlerState.entered : HandlerState → Option Nat
  | .waiting index _ _ => some index
  | .leaving index _ => some index
  | _ => none

/-- The index and the term with which a handler still waits for a result. -/
def HandlerState.awaits : HandlerState → Option (Nat × Nat)
  | .registering index term => some (index, term)
  | .waiting index term _ => some (index, term)
  | _ => none

/-- The applier is about to send to this channel. -/
def Applier.sendsTo (channel : Nat) : Applier → Bool
  | .notifying target _ => target == channel
  | _ => false

/-- The handler waits on this channel, or will find it in `notify`. -/
def HandlerState.uses (server : KVServer) (channel : Nat) : HandlerState → Bool
  | .registering index _ => server.notify index == some channel
  | .waiting _ _ own => own == channel
  | _ => false

/-- The handler has still to read the cached result of its index, or waits on an empty
channel that the applier is not about to fill. -/
def HandlerState.needs (server : KVServer) : HandlerState → Bool
  | .registering index _ => (server.appliedResults index).isSome
  | .waiting _ _ channel =>
    match server.channels[channel]? with
    | some none => !server.applier.sendsTo channel
    | _ => false
  | _ => false

theorem HandlerState.uses_registering {server : KVServer} {index channel : Nat} (term : Nat)
    (there : server.notify index = some channel) :
    (HandlerState.registering index term).uses server channel = true := by
  simp [HandlerState.uses, there]

theorem HandlerState.sending_of_needs_eq_false {server : KVServer} {channel : Nat} (index term : Nat)
    (empty : server.channels[channel]? = some none)
    (not : (HandlerState.waiting index term channel).needs server = false) :
    ∃ res, server.applier = .notifying channel res := by
  simp only [HandlerState.needs, empty, Bool.not_eq_false'] at not
  unfold Applier.sendsTo at not
  split at not
  next target res is =>
    obtain rfl : target = channel := by simpa using not
    exact ⟨res, is⟩
  next => cases not

/-- The first handler, which takes its result or returns, takes from the second what it
waits for. -/
def HandlerState.deprives (server : KVServer) (mover other : HandlerState) : Bool :=
  match mover with
  | .waiting _ _ channel => other.uses server channel
  | .leaving _ _ => other.needs server
  | _ => false

/-- A handler in another place stays as it is. -/
theorem mem_set_of_ne {handlers : List Handler} {h : Nat} {old new other : Handler}
    (found : handlers[h]? = some old) (member : other ∈ handlers) (apart : other ≠ old) :
    other ∈ handlers.set h new := by
  obtain ⟨k, here⟩ := List.getElem?_of_mem member
  have away : h ≠ k := by
    rintro rfl
    rw [found] at here
    exact apart (Option.some.inj here).symm
  refine List.mem_of_getElem? (i := k) ?_
  rw [List.getElem?_set_ne away, here]

namespace Host

variable {host host' : Host} {owner : Nat → Nat} {h i index term channel : Nat} {op : Op} {res : ApplyResult}
variable {handler : Handler} {live : Nat → Prop} {mover : Option Nat}

/-- What one step can do to a server, and which handler takes a result or returns in it. -/
inductive Move (host : Host) : Option Nat → Host → Prop
  | none : Move host .none host
  | handle (op : Op) : Move host .none (host.handle op)
  | start {h : Nat} {op : Op} {index term : Nat} : host.server.handlers[h]? = some ⟨op, .calling⟩ →
      Move host .none { host with server := host.server.setHandler h ⟨op, .registering index term⟩ }
  | refused {h : Nat} {op : Op} : host.server.handlers[h]? = some ⟨op, .calling⟩ →
      Move host .none { host with server := host.server.setHandler h ⟨op, .returned⟩ }
  | found {h : Nat} {op : Op} {index term channel : Nat} :
      host.server.handlers[h]? = some ⟨op, .registering index term⟩ →
      host.server.notify index = some channel →
      Move host .none { host with server := host.server.setHandler h ⟨op, .waiting index term channel⟩ }
  | made {h : Nat} {op : Op} {index term : Nat} :
      host.server.handlers[h]? = some ⟨op, .registering index term⟩ → host.server.notify index = none →
      Move host .none { host with server :=
        { host.server with
          notify := Function.update host.server.notify index (some host.server.channels.length)
          channels := host.server.channels ++ [host.server.appliedResults index]
          handlers := host.server.handlers.set h ⟨op, .waiting index term host.server.channels.length⟩ } }
  | take {h : Nat} {op : Op} {index term channel : Nat} {res : ApplyResult} {reply : Reply} :
      host.server.handlers[h]? = some ⟨op, .waiting index term channel⟩ →
      host.server.channels[channel]? = some (some res) →
      Move host (some h) { host with server :=
        { host.server with
          handlers := host.server.handlers.set h ⟨op, .leaving index reply⟩
          channels := host.server.channels.set channel none } }
  | timeout {h : Nat} {op : Op} {index term channel : Nat} {reply : Reply} :
      host.server.handlers[h]? = some ⟨op, .waiting index term channel⟩ →
      Move host .none { host with server := host.server.setHandler h ⟨op, .leaving index reply⟩ }
  | leave {h : Nat} {op : Op} {index : Nat} {reply : Reply} :
      host.server.handlers[h]? = some ⟨op, .leaving index reply⟩ →
      Move host (some h) { host with server := (host.server.removeNotifyCh index).setHandler h ⟨op, .returned⟩ }
  | command (op : Op) (index : Nat) : host.server.applier = .idle → Move host .none (host.applyCommand op index)
  | notify {channel : Nat} {res : ApplyResult} : host.server.applier = .notifying channel res →
      host.server.channels[channel]? = some .none →
      Move host .none { host with server :=
        { host.server with channels := host.server.channels.set channel (some res), applier := .idle } }
  | dropped {channel : Nat} {res : ApplyResult} : host.server.applier = .notifying channel res →
      host.server.channels[channel]? ≠ some .none →
      Move host .none { host with server := { host.server with applier := .idle } }
  | installing (event : Option Nat) : Move host .none { host with installing := event }
  | install (kv : KVState) (index : Nat) : host.server.applier = .idle →
      Move host .none { host with
        server := { host.server with kv := kv, applied := index, applier := .trimming index }
        installing := .none }
  | trim {index : Nat} : host.server.applier = .trimming index →
      Move host .none { host with server := { host.server.trimNotifications index with applier := .idle } }

/-- Every channel belongs to one index, and whatever is kept for an index is a result
that the applier has computed for it. -/
structure Tied (owner : Nat → Nat) (host : Host) : Prop where
  notify : ∀ {index channel}, host.server.notify index = some channel →
    channel < host.server.channels.length ∧ owner channel = index
  held : ∀ {index channel}, host.server.notify index = some channel →
    ∃ handler ∈ host.server.handlers, handler.state.entered = some index
  waiting : ∀ {op index term channel}, ⟨op, .waiting index term channel⟩ ∈ host.server.handlers →
    channel < host.server.channels.length ∧ owner channel = index
  notifying : ∀ {channel res}, host.server.applier = .notifying channel res →
    (channel < host.server.channels.length ∧ owner channel = host.server.applied) ∧
      (host.server.applied, res) ∈ host.results
  buffered : ∀ {channel res}, host.server.channels[channel]? = some (some res) →
    (owner channel, res) ∈ host.results
  cached : ∀ {index res}, host.server.appliedResults index = some res → (index, res) ∈ host.results

theorem held_set {handlers : List Handler} {old new : Handler} (found : handlers[h]? = some old)
    (keeps : old.state.entered = some i → new.state.entered = some i)
    (held : ∃ handler ∈ handlers, handler.state.entered = some i) :
    ∃ handler ∈ handlers.set h new, handler.state.entered = some i := by
  obtain ⟨handler, member, entered⟩ := held
  by_cases same : handler = old
  · subst same
    have bound := (List.getElem?_eq_some_iff.mp found).1
    exact ⟨new, List.mem_set bound new, keeps entered⟩
  · exact ⟨handler, mem_set_of_ne found member same, entered⟩

theorem tied_start (codec : Codec) (data : List UInt8) : Tied owner (start codec data) :=
  ⟨nofun, nofun, nofun, nofun, nofun, nofun⟩

/-- A handler goes on, and keeps the channel that it has. -/
theorem Tied.setHandler {old new : Handler} (tied : Tied owner host)
    (found : host.server.handlers[h]? = some old)
    (keeps : ∀ i, old.state.entered = some i → new.state.entered = some i)
    (waits : ∀ index term channel, new.state = .waiting index term channel →
      channel < host.server.channels.length ∧ owner channel = index) :
    Tied owner { host with server := host.server.setHandler h new } where
  notify := tied.notify
  held there := held_set found (keeps _) (tied.held there)
  waiting := by
    intro op index term channel member
    rcases List.mem_or_eq_of_mem_set member with old | same
    · exact tied.waiting old
    · exact waits index term channel (congrArg Handler.state same).symm
  notifying := tied.notifying
  buffered := tied.buffered
  cached := tied.cached

/-- The applier goes on, and sends nothing. -/
theorem Tied.setApplier (tied : Tied owner host) (kv : KVState) (applied : Nat) (applier : Applier)
    (event : Option Nat) (quiet : ∀ channel res, applier ≠ .notifying channel res) :
    Tied owner { host with
      server := { host.server with kv := kv, applied := applied, applier := applier }
      installing := event } where
  notify := tied.notify
  held := tied.held
  waiting := tied.waiting
  notifying is := absurd is (quiet _ _)
  buffered := tied.buffered
  cached := tied.cached

/-- A new channel belongs to the index it was made for. -/
theorem Tied.made (tied : Tied owner host)
    (found : host.server.handlers[h]? = some ⟨op, .registering index term⟩) :
    Tied (Function.update owner host.server.channels.length index) { host with server :=
      { host.server with
        notify := Function.update host.server.notify index (some host.server.channels.length)
        channels := host.server.channels ++ [host.server.appliedResults index]
        handlers := host.server.handlers.set h ⟨op, .waiting index term host.server.channels.length⟩ } } := by
  have old {channel : Nat} (bound : channel < host.server.channels.length) :
      Function.update owner host.server.channels.length index channel = owner channel :=
    Function.update_of_ne (by omega) _ _
  have longer {channel i : Nat} (here : channel < host.server.channels.length ∧ owner channel = i) :
      channel < (host.server.channels ++ [host.server.appliedResults index]).length ∧
        Function.update owner host.server.channels.length index channel = i := by
    rw [List.length_append, old here.1]
    exact ⟨by omega, here.2⟩
  have new : host.server.channels.length < (host.server.channels ++ [host.server.appliedResults index]).length ∧
      Function.update owner host.server.channels.length index host.server.channels.length = index := by
    rw [List.length_append, Function.update_self]
    exact ⟨by simp, rfl⟩
  refine ⟨fun {i channel} there => ?_, fun {i channel} there => ?_, fun {op' i term' channel} member => ?_,
    fun {channel res} is => ?_, fun {channel res} there => ?_, tied.cached⟩
  · by_cases same : i = index
    · subst same
      simp only [Function.update_self, Option.some.injEq] at there
      rw [← there]
      exact new
    · simp only [Function.update_of_ne same] at there
      exact longer (tied.notify there)
  · by_cases same : i = index
    · have bound := (List.getElem?_eq_some_iff.mp found).1
      exact ⟨_, List.mem_set bound _, congrArg some same.symm⟩
    · simp only [Function.update_of_ne same] at there
      exact held_set found nofun (tied.held there)
  · rcases List.mem_or_eq_of_mem_set member with old | same
    · exact longer (tied.waiting old)
    · cases same
      exact new
  · obtain ⟨here, computed⟩ := tied.notifying is
    exact ⟨longer here, computed⟩
  · rcases getElem?_concat_cases there with before | ⟨rfl, result⟩
    · rw [old (List.getElem?_eq_some_iff.mp before).1]
      exact tied.buffered before
    · rw [Function.update_self]
      exact tied.cached result

theorem Tied.take {reply : Reply} (tied : Tied owner host)
    (found : host.server.handlers[h]? = some ⟨op, .waiting index term channel⟩) :
    Tied owner { host with server :=
      { host.server with
        handlers := host.server.handlers.set h ⟨op, .leaving index reply⟩
        channels := host.server.channels.set channel none } } := by
  have left : Tied owner { host with server := host.server.setHandler h ⟨op, .leaving index reply⟩ } :=
    tied.setHandler found (fun _ entered => entered) nofun
  refine ⟨fun there => ?_, left.held, fun member => ?_, fun is => ?_, fun {channel' res} there => ?_, tied.cached⟩
  · rw [List.length_set]
    exact tied.notify there
  · rw [List.length_set]
    exact left.waiting member
  · rw [List.length_set]
    exact tied.notifying is
  · by_cases same : channel = channel'
    · subst same
      rw [List.getElem?_set_self (tied.waiting (List.mem_of_getElem? found)).1] at there
      cases there
    · rw [List.getElem?_set_ne same] at there
      exact tied.buffered there

/-- A handler takes the channel and the result of its index with it. -/
theorem Tied.leave {reply : Reply} (tied : Tied owner host)
    (found : host.server.handlers[h]? = some ⟨op, .leaving index reply⟩) :
    Tied owner { host with server := (host.server.removeNotifyCh index).setHandler h ⟨op, .returned⟩ } := by
  refine ⟨fun there => tied.notify (some_of_update_none there), fun {i channel} there => ?_, fun member => ?_,
    tied.notifying, tied.buffered, fun there => tied.cached (some_of_update_none there)⟩
  · refine held_set found (fun entered => ?_) (tied.held (some_of_update_none there))
    cases entered
    simp only [KVServer.setHandler, KVServer.removeNotifyCh, Function.update_self] at there
    cases there
  · rcases List.mem_or_eq_of_mem_set member with old | same
    · exact tied.waiting old
    · cases same

theorem Tied.applyCommand (tied : Tied owner host) (op : Op) (index : Nat) :
    Tied owner (host.applyCommand op index) := by
  have more {i : Nat} {res : ApplyResult} (computed : (i, res) ∈ host.results) :
      (i, res) ∈ (host.applyCommand op index).results := List.mem_append_left _ computed
  have last : (index, (host.server.kv.applyOp op).2) ∈ (host.applyCommand op index).results :=
    List.mem_append_right _ (List.mem_singleton.mpr rfl)
  refine ⟨tied.notify, tied.held, tied.waiting, fun {channel res} is => ?_, fun there => more (tied.buffered there),
    fun {i res} there => ?_⟩
  · simp only [Host.applyCommand] at is
    split at is
    next channel' registered =>
      cases is
      exact ⟨tied.notify registered, last⟩
    next => cases is
  · simp only [Host.applyCommand] at there
    by_cases same : i = index
    · subst same
      rw [Function.update_self] at there
      cases there
      exact last
    · rw [Function.update_of_ne same] at there
      exact more (tied.cached there)

theorem Tied.notify_sent (tied : Tied owner host) (is : host.server.applier = .notifying channel res) :
    Tied owner { host with server :=
      { host.server with channels := host.server.channels.set channel (some res), applier := .idle } } := by
  obtain ⟨⟨bound, belongs⟩, computed⟩ := tied.notifying is
  refine ⟨fun there => ?_, tied.held, fun member => ?_, nofun, fun {channel' res'} there => ?_, tied.cached⟩
  · rw [List.length_set]
    exact tied.notify there
  · rw [List.length_set]
    exact tied.waiting member
  · by_cases same : channel = channel'
    · subst same
      rw [List.getElem?_set_self bound] at there
      cases there
      rw [belongs]
      exact computed
    · rw [List.getElem?_set_ne same] at there
      exact tied.buffered there

theorem Tied.trim (tied : Tied owner host) (index : Nat) :
    Tied owner { host with server := { host.server.trimNotifications index with applier := .idle } } := by
  have kept {α : Type} {f : Nat → Option α} {i : Nat} {a : α}
      (there : (if i ≤ index then none else f i) = some a) : f i = some a := by
    split at there
    next => cases there
    next => exact there
  exact ⟨fun there => tied.notify (kept there), fun there => tied.held (kept there), tied.waiting, nofun,
    tied.buffered, fun there => tied.cached (kept there)⟩

/-- Every step keeps the channels tied to their indices. -/
theorem Tied.move (tied : Tied owner host) (move : Move host mover host') : ∃ owner', Tied owner' host' := by
  cases move with
  | none => exact ⟨owner, tied⟩
  | handle op =>
    refine ⟨owner, tied.notify, fun there => ?_, fun member => ?_, tied.notifying, tied.buffered, tied.cached⟩
    · obtain ⟨handler, old, entered⟩ := tied.held there
      exact ⟨handler, List.mem_append_left _ old, entered⟩
    · rcases List.mem_append.mp member with old | new
      · exact tied.waiting old
      · cases List.mem_singleton.mp new
  | start found => exact ⟨owner, tied.setHandler found nofun nofun⟩
  | refused found => exact ⟨owner, tied.setHandler found nofun nofun⟩
  | found found there =>
    refine ⟨owner, tied.setHandler found nofun ?_⟩
    rintro _ _ _ ⟨⟩
    exact tied.notify there
  | made found _ => exact ⟨_, tied.made found⟩
  | take found _ => exact ⟨owner, tied.take found⟩
  | timeout found => exact ⟨owner, tied.setHandler found (fun _ entered => entered) nofun⟩
  | leave found => exact ⟨owner, tied.leave found⟩
  | command op index _ => exact ⟨owner, tied.applyCommand op index⟩
  | notify is _ => exact ⟨owner, tied.notify_sent is⟩
  | dropped => exact ⟨owner, tied.setApplier _ _ .idle _ nofun⟩
  | installing event =>
    exact ⟨owner, tied.notify, tied.held, tied.waiting, tied.notifying, tied.buffered, tied.cached⟩
  | install kv index _ => exact ⟨owner, tied.setApplier kv index (.trimming index) none nofun⟩
  | trim => exact ⟨owner, tied.trim _⟩

/-- When handler `h` of index `i` takes its result or returns, it takes nothing from the
other handlers of the index that wait in a live term. -/
def Spares (live : Nat → Prop) (i : Nat) (host : Host) (h : Nat) : Prop :=
  ∀ mover ∈ host.server.handlers[h]?, mover.state.index = some i →
    ∀ k < host.server.handlers.length, k ≠ h → ∀ other ∈ host.server.handlers[k]?,
      ∀ wait ∈ other.state.awaits, wait.1 = i → live wait.2 →
        mover.state.deprives host.server other.state = false

instance (live : Nat → Prop) [DecidablePred live] (i : Nat) (host : Host) (h : Nat) :
    Decidable (Spares live i host h) := by
  unfold Spares
  infer_instance

theorem Spares.other {k : Nat} {mover other : Handler} (spares : Spares live i host h)
    (found : host.server.handlers[h]? = some mover) (index : mover.state.index = some i) (away : k ≠ h)
    (here : host.server.handlers[k]? = some other) (awaits : other.state.awaits = some (i, term))
    (alive : live term) : mover.state.deprives host.server other.state = false :=
  spares mover found index k (List.getElem?_eq_some_iff.mp here).1 away other here _ awaits rfl alive

/-- The applier has computed a result for this index. -/
def Computed (i : Nat) (host : Host) : Prop :=
  ∃ res, (i, res) ∈ host.results

/-- No handler of this index misses its result. One without a channel will find the
result in `appliedResults`, or a channel in `notify` that has it or will get it; one whose
channel is empty is still registered for a result to come, or the applier is about to send
it. Handlers of a dead term do not matter. -/
structure Prompt (live : Nat → Prop) (i : Nat) (host : Host) : Prop where
  registering : ∀ {op term}, ⟨op, .registering i term⟩ ∈ host.server.handlers → live term →
    Computed i host → host.server.appliedResults i ≠ none
  shared : ∀ {op term channel}, ⟨op, .registering i term⟩ ∈ host.server.handlers → live term →
    host.server.notify i = some channel → host.server.channels[channel]? = some none →
    ¬ Computed i host ∨ ∃ res, host.server.applier = .notifying channel res
  waiting : ∀ {op term channel}, ⟨op, .waiting i term channel⟩ ∈ host.server.handlers → live term →
    host.server.channels[channel]? = some none →
    ¬ Computed i host ∧ host.server.notify i = some channel ∨
      ∃ res, host.server.applier = .notifying channel res

theorem prompt_start (codec : Codec) (data : List UInt8) : Prompt live i (start codec data) :=
  ⟨nofun, nofun, nofun⟩

theorem Prompt.mono {live' : Nat → Prop} (prompt : Prompt live i host) (fewer : ∀ term, live' term → live term) :
    Prompt live' i host :=
  ⟨fun member alive => prompt.registering member (fewer _ alive),
    fun member alive => prompt.shared member (fewer _ alive),
    fun member alive => prompt.waiting member (fewer _ alive)⟩

/-- A handler goes on that is not too late for the result of this index. -/
theorem Prompt.setHandler {new : Handler} (prompt : Prompt live i host)
    (registers : ∀ term, new.state = .registering i term → ¬ Computed i host)
    (waits : ∀ term channel, new.state = .waiting i term channel → live term →
      host.server.channels[channel]? = some none → ¬ Computed i host ∧ host.server.notify i = some channel ∨
        ∃ res, host.server.applier = .notifying channel res) :
    Prompt live i { host with server := host.server.setHandler h new } where
  registering := by
    intro op term member alive computed
    rcases List.mem_or_eq_of_mem_set member with old | same
    · exact prompt.registering old alive computed
    · exact absurd computed (registers term (congrArg Handler.state same).symm)
  shared := by
    intro op term channel member
    rcases List.mem_or_eq_of_mem_set member with old | same
    · exact prompt.shared old
    · exact fun _ _ _ => .inl (registers term (congrArg Handler.state same).symm)
  waiting := by
    intro op term channel member
    rcases List.mem_or_eq_of_mem_set member with old | same
    · exact prompt.waiting old
    · exact waits term channel (congrArg Handler.state same).symm

/-- A handler that is found after another has gone on is that one or was there. -/
theorem getElem?_set_cases {handlers : List Handler} {k : Nat} {new other : Handler}
    (here : (handlers.set h new)[k]? = some other) : other = new ∨ k ≠ h ∧ handlers[k]? = some other := by
  by_cases same : h = k
  · subst same
    have bound := (List.getElem?_eq_some_iff.mp here).1
    rw [List.length_set] at bound
    rw [List.getElem?_set_self bound] at here
    exact .inl (Option.some.inj here).symm
  · rw [List.getElem?_set_ne same] at here
    exact .inr ⟨Ne.symm same, here⟩

theorem mem_set_cases {handlers : List Handler} {new other : Handler} (member : other ∈ handlers.set h new) :
    other = new ∨ ∃ k, k ≠ h ∧ handlers[k]? = some other := by
  obtain ⟨k, here⟩ := List.getElem?_of_mem member
  rcases getElem?_set_cases here with same | elsewhere
  · exact .inl same
  · exact .inr ⟨k, elsewhere⟩

theorem Prompt.made (prompt : Prompt live i host) (tied : Tied owner host)
    (found : host.server.handlers[h]? = some ⟨op, .registering index term⟩)
    (absent : host.server.notify index = none) :
    Prompt live i { host with server :=
      { host.server with
        notify := Function.update host.server.notify index (some host.server.channels.length)
        channels := host.server.channels ++ [host.server.appliedResults index]
        handlers := host.server.handlers.set h ⟨op, .waiting index term host.server.channels.length⟩ } } := by
  refine ⟨fun member => ?_, fun {op' term' channel} member alive there empty => ?_,
    fun {op' term' channel} member alive empty => ?_⟩
  · rcases List.mem_or_eq_of_mem_set member with old | same
    · exact prompt.registering old
    · cases same
  · rcases List.mem_or_eq_of_mem_set member with old | same
    · by_cases here : i = index
      · -- the channel that the other handler made is empty only if there was no result yet
        subst here
        simp only [Function.update_self, Option.some.injEq] at there
        subst there
        simp only [List.getElem?_concat_length, Option.some.injEq] at empty
        exact .inl fun computed => prompt.registering old alive computed empty
      · simp only [Function.update_of_ne here] at there
        simp only [List.getElem?_append_left (tied.notify there).1] at empty
        exact prompt.shared old alive there empty
    · cases same
  · rcases List.mem_or_eq_of_mem_set member with old | same
    · have bound := (tied.waiting old).1
      simp only [List.getElem?_append_left bound] at empty
      rcases prompt.waiting old alive empty with ⟨before, registered⟩ | sending
      · refine .inl ⟨before, ?_⟩
        have other : i ≠ index := by
          rintro rfl
          rw [absent] at registered
          cases registered
        simp only [Function.update_of_ne other]
        exact registered
      · exact .inr sending
    · -- the new channel is empty only if there was no result yet
      cases same
      simp only [List.getElem?_concat_length, Option.some.injEq] at empty
      refine .inl ⟨fun computed => ?_, Function.update_self _ _ _⟩
      exact prompt.registering (List.mem_of_getElem? found) alive computed empty

theorem Prompt.take {reply : Reply} (prompt : Prompt live i host) (tied : Tied owner host)
    (spares : Spares live i host h)
    (found : host.server.handlers[h]? = some ⟨op, .waiting index term channel⟩) :
    Prompt live i { host with server :=
      { host.server with
        handlers := host.server.handlers.set h ⟨op, .leaving index reply⟩
        channels := host.server.channels.set channel none } } := by
  have mine := (tied.waiting (List.mem_of_getElem? found)).2
  refine ⟨fun member => ?_, fun {op' term' channel'} member alive there empty => ?_,
    fun {op' term' channel'} member alive empty => ?_⟩
  · rcases List.mem_or_eq_of_mem_set member with old | same
    · exact prompt.registering old
    · cases same
  · rcases mem_set_cases member with same | ⟨k, away, here⟩
    · cases same
    have apart : channel ≠ channel' := by
      rintro rfl
      have same : index = i := mine.symm.trans (tied.notify there).2
      have safe := spares.other found (congrArg some same) away here rfl alive
      exact Bool.eq_false_iff.mp safe (HandlerState.uses_registering term' there)
    simp only [List.getElem?_set_ne apart] at empty
    exact prompt.shared (List.mem_of_getElem? here) alive there empty
  · rcases mem_set_cases member with same | ⟨k, away, here⟩
    · cases same
    have apart : channel ≠ channel' := by
      rintro rfl
      have same : index = i := mine.symm.trans (tied.waiting (List.mem_of_getElem? here)).2
      have safe := spares.other found (congrArg some same) away here rfl alive
      exact Bool.eq_false_iff.mp safe (beq_iff_eq.mpr rfl)
    simp only [List.getElem?_set_ne apart] at empty
    exact prompt.waiting (List.mem_of_getElem? here) alive empty

theorem Prompt.leave {reply : Reply} (prompt : Prompt live i host) (spares : Spares live i host h)
    (found : host.server.handlers[h]? = some ⟨op, .leaving index reply⟩) :
    Prompt live i { host with server := (host.server.removeNotifyCh index).setHandler h ⟨op, .returned⟩ } := by
  refine ⟨fun {op' term'} member alive computed => ?_, fun {op' term' channel} member alive there empty => ?_,
    fun {op' term' channel} member alive empty => ?_⟩
  · rcases mem_set_cases member with same | ⟨k, away, here⟩
    · cases same
    have cached := prompt.registering (List.mem_of_getElem? here) alive computed
    by_cases same : i = index
    · subst same
      have safe := spares.other found rfl away here rfl alive
      simp only [HandlerState.deprives, HandlerState.needs, Option.isSome_eq_false_iff,
        Option.isNone_iff_eq_none] at safe
      exact absurd safe cached
    · simp only [KVServer.setHandler, KVServer.removeNotifyCh, Function.update_of_ne same]
      exact cached
  · rcases mem_set_cases member with same | ⟨k, away, here⟩
    · cases same
    exact prompt.shared (List.mem_of_getElem? here) alive (some_of_update_none there) empty
  · rcases mem_set_cases member with same | ⟨k, away, here⟩
    · cases same
    have empty : host.server.channels[channel]? = some none := empty
    rcases prompt.waiting (List.mem_of_getElem? here) alive empty with ⟨before, registered⟩ | sending
    · by_cases same : i = index
      · -- the applier is about to fill the channel, or the handler may not return
        subst same
        have safe := spares.other found rfl away here rfl alive
        exact .inr (HandlerState.sending_of_needs_eq_false i term' empty safe)
      · simp only [KVServer.setHandler, KVServer.removeNotifyCh, Function.update_of_ne same]
        exact .inl ⟨before, registered⟩
    · exact .inr sending

theorem computed_applyCommand : Computed i (host.applyCommand op index) ↔ Computed i host ∨ i = index := by
  constructor
  · rintro ⟨res, member⟩
    rcases List.mem_append.mp member with old | new
    · exact .inl ⟨res, old⟩
    · exact .inr (congrArg Prod.fst (List.mem_singleton.mp new))
  · rintro (⟨res, old⟩ | rfl)
    · exact ⟨res, List.mem_append_left _ old⟩
    · exact ⟨_, List.mem_append_right _ (List.mem_singleton.mpr rfl)⟩

theorem Prompt.applyCommand (prompt : Prompt live i host) (idle : host.server.applier = .idle) :
    Prompt live i (host.applyCommand op index) := by
  refine ⟨fun member alive computed => ?_, fun {op' term' channel} member alive there empty => ?_,
    fun {op' term' channel} member alive empty => ?_⟩
  · by_cases same : i = index
    · subst same
      simp only [Host.applyCommand, Function.update_self]
      exact nofun
    · simp only [Host.applyCommand, Function.update_of_ne same]
      exact prompt.registering member alive ((computed_applyCommand.mp computed).resolve_right same)
  · by_cases same : i = index
    · subst same
      refine .inr ⟨(host.server.kv.applyOp op).2, ?_⟩
      have there : host.server.notify i = some channel := there
      simp only [Host.applyCommand, there]
    · rcases prompt.shared member alive there empty with before | ⟨res, sending⟩
      · exact .inl fun computed => before ((computed_applyCommand.mp computed).resolve_right same)
      · rw [idle] at sending
        cases sending
  · obtain ⟨before, registered⟩ | ⟨res, sending⟩ := prompt.waiting member alive empty
    · by_cases same : i = index
      · subst same
        refine .inr ⟨(host.server.kv.applyOp op).2, ?_⟩
        simp only [Host.applyCommand, registered]
      · exact .inl ⟨fun computed => before ((computed_applyCommand.mp computed).resolve_right same), registered⟩
    · rw [idle] at sending
      cases sending

/-- The applier goes on that was not sending, or to a full channel only. -/
theorem Prompt.setApplier (prompt : Prompt live i host) (kv : KVState) (applied : Nat) (applier : Applier)
    (event : Option Nat)
    (quiet : ∀ channel res, host.server.applier = .notifying channel res →
      host.server.channels[channel]? ≠ some none) :
    Prompt live i { host with
      server := { host.server with kv := kv, applied := applied, applier := applier }
      installing := event } where
  registering := prompt.registering
  shared member alive there empty := by
    rcases prompt.shared member alive there empty with before | ⟨res, sending⟩
    · exact .inl before
    · exact absurd empty (quiet _ res sending)
  waiting member alive empty := by
    rcases prompt.waiting member alive empty with before | ⟨res, sending⟩
    · exact .inl before
    · exact absurd empty (quiet _ res sending)

theorem Prompt.notify_sent (prompt : Prompt live i host) (tied : Tied owner host)
    (is : host.server.applier = .notifying channel res) :
    Prompt live i { host with server :=
      { host.server with channels := host.server.channels.set channel (some res), applier := .idle } } := by
  have apart {channel' : Nat} (empty : (host.server.channels.set channel (some res))[channel']? = some none) :
      channel ≠ channel' := by
    rintro rfl
    rw [List.getElem?_set_self (tied.notifying is).1.1] at empty
    cases empty
  have other {channel' : Nat} (away : channel ≠ channel') (res' : ApplyResult) :
      host.server.applier ≠ .notifying channel' res' := by
    rw [is]
    rintro ⟨⟩
    exact away rfl
  refine ⟨prompt.registering, fun {op' term' channel'} member alive there empty => ?_,
    fun {op' term' channel'} member alive empty => ?_⟩
  · have away := apart empty
    simp only [List.getElem?_set_ne away] at empty
    exact .inl ((prompt.shared member alive there empty).resolve_right fun ⟨res', sending⟩ => other away res' sending)
  · have away := apart empty
    simp only [List.getElem?_set_ne away] at empty
    exact .inl ((prompt.waiting member alive empty).resolve_right fun ⟨res', sending⟩ => other away res' sending)

theorem Prompt.trim (prompt : Prompt live i host) (is : host.server.applier = .trimming index)
    (below : ∀ {handler term}, handler ∈ host.server.handlers → handler.state.awaits = some (i, term) →
      live term → index < i) :
    Prompt live i { host with server := { host.server.trimNotifications index with applier := .idle } } := by
  refine ⟨fun member alive computed => ?_, fun {op' term' channel} member alive there empty => ?_,
    fun {op' term' channel} member alive empty => ?_⟩
  · have beyond := below member rfl alive
    simp only [KVServer.trimNotifications, if_neg (Nat.not_le.mpr beyond)]
    exact prompt.registering member alive computed
  · have beyond := below member rfl alive
    simp only [KVServer.trimNotifications, if_neg (Nat.not_le.mpr beyond)] at there
    rcases prompt.shared member alive there empty with before | ⟨res, sending⟩
    · exact .inl before
    · rw [is] at sending
      cases sending
  · have beyond := below member rfl alive
    simp only [KVServer.trimNotifications, if_neg (Nat.not_le.mpr beyond)]
    rcases prompt.waiting member alive empty with before | ⟨res, sending⟩
    · exact .inl before
    · rw [is] at sending
      cases sending

/-- Every step keeps the handlers of an index prompt, if they spare each other, if `Start`
gives no index that has a result and if nothing that is trimmed is waited for. -/
theorem Prompt.move (prompt : Prompt live i host) (tied : Tied owner host) (move : Move host mover host')
    (spares : ∀ h ∈ mover, Spares live i host h)
    (fresh : ∀ {h : Nat} {op : Op} {term : Nat}, host.server.handlers[h]? = some ⟨op, .calling⟩ →
      host'.server.handlers[h]? = some ⟨op, .registering i term⟩ → ¬ Computed i host)
    (below : ∀ {index handler term}, host.server.applier = .trimming index →
      handler ∈ host.server.handlers → handler.state.awaits = some (i, term) → live term → index < i) :
    Prompt live i host' := by
  cases move with
  | none => exact prompt
  | handle op =>
    refine ⟨fun member => ?_, fun member => ?_, fun member => ?_⟩
    · rcases List.mem_append.mp member with old | new
      · exact prompt.registering old
      · cases List.mem_singleton.mp new
    · rcases List.mem_append.mp member with old | new
      · exact prompt.shared old
      · cases List.mem_singleton.mp new
    · rcases List.mem_append.mp member with old | new
      · exact prompt.waiting old
      · cases List.mem_singleton.mp new
  | @start h op index term found =>
    refine prompt.setHandler ?_ nofun
    rintro _ ⟨⟩
    have bound := (List.getElem?_eq_some_iff.mp found).1
    exact fresh found (List.getElem?_set_self bound)
  | refused => exact prompt.setHandler nofun nofun
  | found found there =>
    refine prompt.setHandler nofun ?_
    rintro _ _ ⟨⟩ alive empty
    exact (prompt.shared (List.mem_of_getElem? found) alive there empty).imp_left fun before => ⟨before, there⟩
  | made found absent => exact prompt.made tied found absent
  | take found => exact prompt.take tied (spares _ rfl) found
  | timeout => exact prompt.setHandler nofun nofun
  | leave found => exact prompt.leave (spares _ rfl) found
  | command op index idle => exact prompt.applyCommand idle
  | notify is => exact prompt.notify_sent tied is
  | dropped is full =>
    refine prompt.setApplier _ _ .idle _ fun channel res sending => ?_
    rw [is] at sending
    cases sending
    exact full
  | installing event => exact ⟨prompt.registering, prompt.shared, prompt.waiting⟩
  | install kv index idle =>
    refine prompt.setApplier kv index (.trimming index) none fun channel res sending => ?_
    rw [idle] at sending
    cases sending
  | trim is => exact prompt.trim is (below is)

/-- A prompt handler has its result in its channel once the applier is done with the index. -/
theorem Prompt.result (prompt : Prompt live i host) (tied : Tied owner host)
    (waiting : ⟨op, .waiting i term channel⟩ ∈ host.server.handlers) (alive : live term)
    (computed : Computed i host)
    (done : ∀ channel res, host.server.applier = .notifying channel res → host.server.applied ≠ i) :
    ∃ res, (i, res) ∈ host.results ∧ host.server.channels[channel]? = some (some res) := by
  obtain ⟨bound, belongs⟩ := tied.waiting waiting
  cases content : host.server.channels[channel]? with
  | none => exact absurd (List.getElem?_eq_none_iff.mp content) (Nat.not_le.mpr bound)
  | some buffer =>
    cases buffer with
    | none =>
      rcases prompt.waiting waiting alive content with ⟨before, _⟩ | ⟨res, sending⟩
      · exact absurd computed before
      · have mine := (tied.notifying sending).1.2
        exact absurd (mine.symm.trans belongs) (done channel res sending)
    | some res =>
      have here := tied.buffered content
      rw [belongs] at here
      exact ⟨res, here, rfl⟩

end Host

end DistSys.KvRaft
