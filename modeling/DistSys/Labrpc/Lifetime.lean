import DistSys.Labrpc.Delivery

namespace DistSys.Labrpc.Network

variable {E N : Type} {events later : List (Event E N)} {event : Event E N}
  {rn rn' t : Network E N} {i s : Nat} {r r' : Request E N} {act : Act} {endname : E} {servername : N}

/-- All calls are where `processReq` can be. -/
def Sound (rn : Network E N) : Prop :=
  ∀ (i : Nat) (r : Request E N), rn.requests[i]? = some r → r.Consistent

/-! ### Deleted servers -/

/-- The server is registered under no name. -/
def Gone (s : Nat) (rn : Network E N) : Prop :=
  ∀ name, rn.servers name ≠ some s

theorem Gone.dead {info : Info N} (gone : Gone s rn) (at_ : info.server = s) :
    rn.isServerDead endname info = true := by
  simp only [isServerDead, Bool.or_eq_true, bne_iff_ne, ne_eq]
  exact Or.inr (at_ ▸ gone info.servername)

theorem Gone.unread {info : Info N} (gone : Gone s rn) (found : rn.readEndnameInfo endname = some info) :
    info.server ≠ s := by
  simp only [readEndnameInfo] at found
  split at found
  next =>
    obtain ⟨name, _, found⟩ := Option.bind_eq_some_iff.mp found
    obtain ⟨server, there, is⟩ := Option.bind_eq_some_iff.mp found
    cases is
    intro same
    exact gone name (same ▸ there)
  next => cases found

/-- A call to the server `s` that has passed its last check had done so in `t`. -/
def PassedBefore (t : Network E N) (s i : Nat) (r : Request E N) : Prop :=
  ∀ info reply, r.info = some info → info.server = s → r.progress.reply = some reply →
    ∃ old, t.requests[i]? = some old ∧ old.info = some info ∧ old.progress.reply = some reply

theorem PassedBefore.moves (old : PassedBefore t s i r) (gone : Gone s rn) (consistent : r.Consistent)
    (moves : Moves rn r act r') : PassedBefore t s i r' := by
  intro info reply found at_ passed
  have known : r.info = some info := by
    rcases moves.info_cases consistent with same | ⟨_, _, _, read⟩
    · rw [← same, found]
    · exact absurd at_ (gone.unread (read ▸ found))
  rcases moves.reply_cases consistent with same | none | ⟨info', _, _, _, found', _, _, alive⟩
  · exact old info reply known at_ (same ▸ passed)
  · rw [none] at passed
    cases passed
  · rw [known] at found'
    cases found'
    rw [gone.dead at_] at alive
    cases alive

/-! ### Undisturbed ends -/

/-- The end reaches the server, and nothing is lost. -/
structure Undisturbed (endname : E) (servername : N) (s : Nat) (rn : Network E N) : Prop where
  reliable : rn.reliable = true
  done : rn.done = false
  enabled : rn.enabled endname = true
  connected : rn.connections endname = some servername
  present : rn.servers servername = some s

theorem Undisturbed.reads (calm : Undisturbed endname servername s rn) :
    rn.readEndnameInfo endname = some ⟨servername, s, true, rn.longReordering⟩ := by
  simp [readEndnameInfo, calm.enabled, calm.connected, calm.present, calm.reliable]

theorem Undisturbed.alive {info : Info N} (calm : Undisturbed endname servername s rn)
    (name : info.servername = servername) (at_ : info.server = s) : rn.isServerDead endname info = false := by
  simp [isServerDead, calm.enabled, name, calm.present, at_]

/-- A call on this end goes well so far. -/
structure GoesWell (endname : E) (servername : N) (s : Nat) (r : Request E N) : Prop where
  info : ∀ info, r.info = some info → info.servername = servername ∧ info.server = s ∧ info.reliable = true
  progress : r.progress ≠ .abandoned ∧ r.progress ≠ .refused ∧
    r.progress ≠ .stopped none ∧ r.progress ≠ .returned none

theorem GoesWell.new (svcMeth args : GoString) : GoesWell endname servername s (newRequest endname svcMeth args) where
  info := fun _ found => nomatch found
  progress := by simp [newRequest]

theorem GoesWell.moves (old : GoesWell endname servername s r) (calm : Undisturbed endname servername s rn)
    (on : r.endname = endname) (moves : Moves rn r act r') : GoesWell endname servername s r' := by
  subst on
  cases moves with
  | abandon _ done =>
    rw [calm.done] at done
    cases done
  | accept => exact ⟨old.info, by simp⟩
  | locate _ found =>
    rw [calm.reads] at found
    cases found
    exact ⟨fun info is => by cases is; exact ⟨rfl, rfl, rfl⟩, by simp⟩
  | refuse _ missing =>
    rw [calm.reads] at missing
    cases missing
  | expire refused => exact absurd refused old.progress.2.1
  | dropRequest _ found unreliable | dropReply _ found unreliable =>
    rw [(old.info _ found).2.2] at unreliable
    cases unreliable
  | kill _ found dead | fail _ found dead =>
    obtain ⟨name, at_, _⟩ := old.info _ found
    rw [calm.alive name at_] at dead
    cases dead
  | lose stopped => exact absurd stopped old.progress.2.2.1
  | count | dispatch | invoke | finish | wait => exact ⟨old.info, old.progress⟩
  | _ => exact ⟨old.info, by simp⟩

/-! ### Runs -/

variable [DecidableEq E] [DecidableEq N]

/-- A rule for one property of the calls: it holds of new calls, the steps of a call keep it,
and what the tests do concerns none of the calls. -/
theorem Sound.step_requests {P : Nat → Request E N → Prop} (sound : Sound rn) (next : step rn event = some rn')
    (new : ∀ endname svcMeth args, P rn.requests.length (newRequest endname svcMeth args))
    (keep : ∀ i r act r', rn.requests[i]? = some r → Moves rn r act r' → P i r → P i r')
    (old : ∀ (i : Nat) (r : Request E N), rn.requests[i]? = some r → P i r) (here : rn'.requests[i]? = some r) :
    P i r := by
  rcases step_cases sound next with ⟨j, act, was, now, rfl, there, acted⟩ | ⟨e, m, a, rfl, rfl⟩ | ⟨_, arranged⟩
  · rcases acted.request_cases here with ⟨rfl, rfl⟩ | ⟨_, before⟩
    · exact keep i was act r there acted.moves (old i was there)
    · exact old i r before
  · rcases getElem?_concat_cases here with before | ⟨rfl, rfl⟩
    · exact old i r before
    · exact new e m a
  · rw [arranged.requests] at here
    exact old i r here

theorem Sound.step (sound : Sound rn) (next : step rn event = some rn') : Sound rn' :=
  fun _ _ here => sound.step_requests (P := fun _ r => r.Consistent) next (fun _ _ _ => ⟨rfl, rfl⟩)
    (fun _ _ _ _ _ moves old => moves.consistent old) sound here

theorem Gone.step (gone : Gone s rn) (sound : Sound rn) (next : step rn event = some rn')
    (kept : ∀ name, event ≠ .addServer name s) : Gone s rn' := by
  intro name there
  rcases step_cases sound next with ⟨_, _, _, _, _, _, acted⟩ | ⟨_, _, _, rfl, rfl⟩ | ⟨_, arranged⟩
  · rw [acted.net.servers] at there
    exact gone name there
  · exact gone name there
  · rcases arranged.servers name s there with before | ⟨added, _⟩
    · exact gone name before
    · exact kept name added

/-- After a server has been deleted, and while it is not added again, a call to it returns
true only if its reply had passed the last check before: a handler that returns after the
deletion is never answered. -/
theorem deleted_server_silent (run : after events = some t) (gone : Gone s t)
    (rest : exec step t later = some rn) (kept : ∀ name, .addServer name s ∉ later)
    (here : rn.requests[i]? = some r) {info : Info N} (found : r.info = some info) (at_ : info.server = s)
    {reply : GoString} (returned : r.progress = .returned (some reply)) :
    ∃ old, t.requests[i]? = some old ∧ old.info = some info ∧ old.progress.reply = some reply := by
  have guarded : Along step t later fun _ event => ∀ name, event ≠ .addServer name s := by
    intro before event u part _ name same
    have member : event ∈ later := part.subset (by simp)
    exact kept name (same ▸ member)
  have every : Sound rn ∧ Gone s rn ∧
      ∀ (i : Nat) (r : Request E N), rn.requests[i]? = some r → PassedBefore t s i r := by
    refine exec_along (P := fun _ u => Sound u ∧ Gone s u ∧
      ∀ (i : Nat) (r : Request E N), u.requests[i]? = some r → PassedBefore t s i r) ?_ ?_ guarded rest
    · refine ⟨(orderly run).consistent, gone, fun i r here info reply found _ passed => ⟨r, here, found, passed⟩⟩
    · rintro _ u event v _ ⟨sound, absent, passed⟩ other next
      refine ⟨sound.step next, absent.step sound next other, fun i r here => ?_⟩
      refine sound.step_requests next (fun _ _ _ _ _ found => nomatch found) ?_ passed here
      intro i r _ r' there moves old
      exact old.moves absent (sound i r there) moves
  exact every.2.2 i r here info reply found at_ (by rw [returned]; rfl)

theorem deleted_server_silent_crossing : ∃ t rn r, after crossing = some t ∧ Gone 0 t ∧
    exec step t [.act 0 .lastCheck, .act 1 .answer, .act 1 .deliver] = some rn ∧ rn.requests[1]? = some r ∧
    ∃ old, t.requests[1]? = some old ∧ old.info = r.info ∧ old.progress.reply = some [8] := by
  obtain ⟨t, rn, r, run, rest, here, is⟩ := progressOf_append
    (by decide +kernel :
      progressOf (crossing ++ [.act 0 .lastCheck, .act 1 .answer, .act 1 .deliver]) 1 = some (.returned (some [8])))
  have absent : (after crossing).all fun t => decide (∀ name, t.servers name ≠ some 0) := by decide +kernel
  rw [run, Option.all_some, decide_eq_true_eq] at absent
  have gone : Gone 0 t := absent
  have located : (exec step t [.act 0 .lastCheck, .act 1 .answer, .act 1 .deliver]).all fun rn =>
      rn.requests[1]?.all fun r =>
      r.info.any fun info => info.server == 0 := by
    have all : ((after crossing).bind fun t => exec step t [.act 0 .lastCheck, .act 1 .answer, .act 1 .deliver]).all
      fun rn => rn.requests[1]?.all fun r => r.info.any fun info => info.server == 0 := by decide +kernel
    rwa [run] at all
  rw [rest, Option.all_some, here, Option.all_some, Option.any_eq_true] at located
  obtain ⟨info, found, at_⟩ := located
  have silent := deleted_server_silent run gone rest (by simp) here found (eq_of_beq at_) is
  rw [← found] at silent
  exact ⟨t, rn, r, run, gone, rest, here, silent⟩

/-- While the network is reliable, the end is enabled and its server is there, no call that
is made on this end fails. -/
theorem undisturbed_call_never_fails (run : after events = some t)
    (calm : Along step t later fun u _ => Undisturbed endname servername s u) (rest : exec step t later = some rn)
    (here : rn.requests[i]? = some r) (new : t.requests.length ≤ i) (on : r.endname = endname) :
    r.progress ≠ .abandoned ∧ r.progress ≠ .returned none ∧
      ∀ info, r.info = some info → info.servername = servername ∧ info.server = s := by
  have every : Sound rn ∧ ∀ (i : Nat) (r : Request E N), rn.requests[i]? = some r → t.requests.length ≤ i →
      r.endname = endname → GoesWell endname servername s r := by
    refine exec_along (P := fun _ u => Sound u ∧ ∀ (i : Nat) (r : Request E N), u.requests[i]? = some r →
      t.requests.length ≤ i → r.endname = endname → GoesWell endname servername s r) ?_ ?_ calm rest
    · refine ⟨(orderly run).consistent, fun i r here new => ?_⟩
      have within := (List.getElem?_eq_some_iff.mp here).1
      omega
    · rintro _ u event v _ ⟨sound, well⟩ calm next
      refine ⟨sound.step next, fun i r here => ?_⟩
      refine sound.step_requests next (fun _ svcMeth args _ on => on ▸ GoesWell.new svcMeth args) ?_ well here
      intro i r _ r' there moves old new on
      have same : r.endname = endname := by rw [← moves.same.1, on]
      exact (old new same).moves calm same moves
  have well := every.2 i r here new on
  exact ⟨well.progress.1, well.progress.2.2.2, fun info is => ⟨(well.info info is).1, (well.info info is).2.1⟩⟩

instance decidableUndisturbed : Decidable (Undisturbed endname servername s rn) :=
  decidable_of_iff (rn.reliable = true ∧ rn.done = false ∧ rn.enabled endname = true ∧
    rn.connections endname = some servername ∧ rn.servers servername = some s)
    ⟨fun ⟨reliable, done, enabled, connected, present⟩ => ⟨reliable, done, enabled, connected, present⟩,
      fun calm => ⟨calm.reliable, calm.done, calm.enabled, calm.connected, calm.present⟩⟩

theorem undisturbed_call_never_fails_answered : ∃ t rn r, after setUp = some t ∧
    exec step t (answered.drop setUp.length) = some rn ∧ rn.requests[0]? = some r ∧ r.progress ≠ .returned none := by
  obtain ⟨t, rn, r, run, rest, here, is⟩ := progressOf_append
    (by decide +kernel : progressOf (setUp ++ answered.drop setUp.length) 0 = some (.returned (some [7])))
  have calm : (after setUp).all fun t => t.requests.isEmpty &&
      decide (Along step t (answered.drop setUp.length) fun u _ => Undisturbed 0 0 0 u) := by decide +kernel
  rw [run, Option.all_some, Bool.and_eq_true, List.isEmpty_iff] at calm
  refine ⟨t, rn, r, run, rest, here, ?_⟩
  exact (undisturbed_call_never_fails run (of_decide_eq_true calm.2) rest here
    (by simp [calm.1]) (Subsingleton.elim _ _)).2.1

end DistSys.Labrpc.Network
