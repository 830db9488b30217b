import DistSys.KvRaft.Replicated
import Mathlib.Data.Finite.Prod

namespace DistSys.KvRaft

open Raft (World LogEntry)
open Replica (Grows Committed)

/-- Every handler that answers OK answers a result of its operation at its index. -/
def Host.Answered (host : Host) : Prop :=
  ∀ op index value, ⟨op, .leaving index (.ok value)⟩ ∈ host.server.handlers → (index, ⟨op, value⟩) ∈ host.results

theorem Host.Answered.keeps {host host' : Host} {owner : Nat → Nat} (answered : host.Answered)
    (tied : host.Tied owner) (keeps : host.Keeps host') : host'.Answered := by
  intro op index value member
  rw [keeps.results]
  rcases keeps.server.answers op index value member with old | ⟨term, channel, waits, full⟩
  · exact answered op index value old
  · have result := tied.buffered full
    rwa [(tied.waiting waits).2] at result

namespace Deployment

variable {n : Nat} {codec : Codec} {d d' : Deployment n} {A B : World n Op} {e : Event n}

/-- Whatever a handler is about to answer is a result of its own operation at its index. -/
theorem answered_of_goes {act : Option (Raft.Action n Op)} (goes : Goes codec d act d')
    (answered : ∀ s, (d.host s).Answered) (tied : ∀ s, ∃ owner, (d.host s).Tied owner) (t : Fin n) :
    (d'.host t).Answered := by
  have kept {host' : Host} (keeps : (d.host t).Keeps host') : host'.Answered := by
    obtain ⟨owner, ties⟩ := tied t
    exact (answered t).keeps ties keeps
  have updated {s : Fin n} {host' : Host} (acts : host'.Answered) : (Function.update d.host s host' t).Answered := by
    by_cases here : t = s
    · subst here
      rwa [Function.update_self]
    · rw [Function.update_of_ne here]
      exact answered t
  cases goes with
  | alone _ keeps => exact kept (keeps t)
  | idles _ _ keeps => exact kept (keeps t)
  | save => exact answered t
  | @command s =>
    refine updated fun op index value member => ?_
    exact List.mem_append_left _ (answered s op index value member)
  | @install s =>
    refine updated ?_
    unfold Host.applySnapshot
    simp only
    split <;> exact answered s
  | crash => exact updated nofun

/-- For every server there is a committed log with all its answers. -/
def Justified (A : World n Op) (d : Deployment n) : Prop :=
  ∀ s, ∃ log term, Committed LogEntry.term A term log ∧
    ∀ op index value, ⟨op, .leaving index (.ok value)⟩ ∈ (d.host s).server.handlers →
      Computes (commands log) index ⟨op, value⟩

theorem Justified.grows (justified : Justified A d) (grows : Grows A B) : Justified B d := by
  intro s
  obtain ⟨log, term, committed, all⟩ := justified s
  exact ⟨log, term, committed.grows grows, all⟩

theorem Replicated.justified (replicated : Replicated codec A d) (answered : ∀ s, (d.host s).Answered) :
    Justified A d := by
  intro s
  obtain ⟨log, term, committed, applies⟩ := replicated.applies s
  exact ⟨log, term, committed, fun op index value member => applies.results _ _ (answered s op index value member)⟩

/-- The state of a run, with the answers of all states before. -/
structure Recorded (codec : Codec) (A : World n Op) (es : List (Event n)) (d : Deployment n) : Prop where
  replicated : Replicated codec A d
  supported : ∃ B, Supported B d
  answered : ∀ s, (d.host s).Answered
  justified : ∀ {bs u}, bs <+: es → after codec bs = some u → Justified A u

theorem recorded_initial (codec : Codec) (n : Nat) :
    Recorded codec (Replica.State.initial (Fin n) (LogEntry Op) (0 : Int)) [] (initial codec n) where
  replicated := replicated_initial codec n
  supported := ⟨_, supported_initial codec n⟩
  answered _ := nofun
  justified part run := by
    rw [List.prefix_nil.mp part] at run
    cases run
    exact (replicated_initial codec n).justified fun _ => nofun

theorem Recorded.step {es : List (Event n)} (recorded : Recorded codec A es d) (lawful : codec.Lawful)
    (run : after codec es = some d)
    (calm : ∀ a ∈ d.action codec e, Raft.Undisturbed d.cluster a ∧ Raft.InstallsOnward d.cluster a)
    (next : d.step codec e = some d') : ∃ B, Recorded codec B (es ++ [e]) d' := by
  obtain ⟨B, grows, replicated⟩ := recorded.replicated.step lawful calm next
  obtain ⟨_, supported⟩ := recorded.supported
  have answered := answered_of_goes (goes_of_step next) recorded.answered fun s => (supported.backed s).tied
  obtain ⟨W, _, supported'⟩ := supported.step next
  refine ⟨B, replicated, ⟨W, supported'⟩, answered, fun {bs u} part before => ?_⟩
  rcases List.prefix_concat_iff.mp part with rfl | earlier
  · have same : after codec (es ++ [e]) = some d' := exec_concat run next
    rw [same] at before
    cases before
    exact replicated.justified answered
  · exact (recorded.justified earlier before).grows grows

/-- All OK answers that the servers ever give, before and after crashes, are those of one
log: the operation stands in it at the index of the handler, and its value is what the
operations before it lead to. -/
theorem answers_follow_one_log {es : List (Event n)} (lawful : codec.Lawful) (run : after codec es = some d)
    (calm : Along (step codec) (initial codec n) es fun u e =>
      ∀ a ∈ u.action codec e, Raft.Undisturbed u.cluster a ∧ Raft.InstallsOnward u.cluster a) :
    ∃ log : List Op, ∀ bs u, bs <+: es → after codec bs = some u → ∀ s op index value,
      ⟨op, .leaving index (.ok value)⟩ ∈ (u.host s).server.handlers → Computes log index ⟨op, value⟩ := by
  have invariant : ∃ A, Recorded codec A es d := by
    refine exec_along (P := fun bs u => ∃ A, Recorded codec A bs u) ⟨_, recorded_initial codec n⟩ ?_ calm run
    rintro bs u e v before ⟨A, recorded⟩ undisturbed next
    exact recorded.step lawful before undisturbed next
  obtain ⟨A, recorded⟩ := invariant
  -- one committed log for every moment and every server
  have each : ∀ moment : Fin (es.length + 1) × Fin n, ∃ log, (∃ t, Committed LogEntry.term A t log) ∧
      ∀ u, after codec (es.take moment.1) = some u → ∀ op index value,
        ⟨op, .leaving index (.ok value)⟩ ∈ (u.host moment.2).server.handlers →
          Computes (commands log) index ⟨op, value⟩ := by
    rintro ⟨k, s⟩
    cases reached : after codec (es.take k) with
    | none => exact ⟨[], ⟨0, .inl rfl⟩, nofun⟩
    | some u =>
      obtain ⟨log, t, committed, all⟩ := recorded.justified (List.take_prefix _ _) reached s
      refine ⟨log, ⟨t, committed⟩, ?_⟩
      rintro _ ⟨⟩
      exact all
  choose logs committed all using each
  obtain ⟨common, parts⟩ := recorded.replicated.underlying.accounted.rel.inv.exists_common_log committed
  refine ⟨commands common, fun bs u part before s op index value member => ?_⟩
  have short : bs.length < es.length + 1 := Nat.lt_succ_of_le part.length_le
  rw [List.prefix_iff_eq_take.mp part] at before
  exact (all (⟨bs.length, short⟩, s) u before op index value member).mono ((parts _).map _)

/-- The handler takes its result and answers. -/
def answeredRun : List (Event 3) := savedRun ++ [.take 0 0]

theorem answeredRun_runs : (after labgob answeredRun).isSome = true := by decide +kernel

theorem answeredRun_calm : Along (step labgob) (initial labgob 3) answeredRun fun u e =>
    ∀ a ∈ u.action labgob e, Raft.Undisturbed u.cluster a ∧ Raft.InstallsOnward u.cluster a := by decide +kernel

theorem answers_follow_one_log_saved : ∃ d, after labgob answeredRun = some d ∧
    ⟨putBy 1, .leaving 1 (.ok [])⟩ ∈ (d.host 0).server.handlers ∧
    ∃ log, Computes log 1 ⟨putBy 1, []⟩ := by
  have here : ⟨putBy 1, .leaving 1 (.ok [])⟩ ∈
      ((final labgob answeredRun answeredRun_runs).host 0).server.handlers := List.mem_of_getElem? (i := 0) rfl
  have run := after_final labgob answeredRun answeredRun_runs
  obtain ⟨log, all⟩ := answers_follow_one_log exists_lawful.choose_spec run answeredRun_calm
  exact ⟨_, run, here, log, all _ _ List.prefix_rfl run 0 _ _ _ here⟩

end Deployment

end DistSys.KvRaft
