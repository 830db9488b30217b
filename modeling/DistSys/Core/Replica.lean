import DistSys.Core.Majority
import Mathlib.Data.List.Infix
import Mathlib.Order.Basic

namespace DistSys.Replica

inductive Role
  | follower
  | candidate
  | leader

/-- One member of a leader-based replicated log: its term, the part it plays
in that term and its whole log, nothing of which is ever compacted. -/
structure Peer (τ E : Type*) where
  term : τ
  role : Role
  log : List E

/-- Leader-based log replication with its history. `vote`, `asked`, `chief`,
`book` and `ack` only ever grow: who a member voted for in a term, which logs
a candidate presented, who won a term, the log of that winner while it led,
and how much of it a member has stored while it was in that term. All members
start in the term `origin`. -/
structure State (S τ E : Type*) where
  origin : τ
  peer : S → Peer τ E
  vote : S → τ → Option S
  asked : S → τ → List E → Prop
  chief : τ → Option S
  book : τ → List E
  ack : S → τ → Nat

section
variable {S τ E : Type*} [LinearOrder τ] (stamp : E → τ)

/-- The position `k` of the book of term `t` was written in that very term. -/
def Own (a : State S τ E) (t : τ) (k : Nat) : Prop :=
  ∃ e, (a.book t)[k]? = some e ∧ stamp e = t

/-- A majority left term `t` without having stored position `k` of its book. -/
def Lost [Fintype S] (a : State S τ E) (t : τ) (k : Nat) : Prop :=
  ∃ Q : Finset S, Majority Q ∧ ∀ v ∈ Q, t < (a.peer v).term ∧ a.ack v t ≤ k

/-- The log holds the book of term `t` through position `k`, unless that
position can no longer be chosen in that term. -/
def Kept [Fintype S] (a : State S τ E) (L : List E) (t : τ) (k : Nat) : Prop :=
  (a.book t).take (k + 1) <+: L ∨ Lost a t k

/-- A majority stored a position that the leader of term `t` itself wrote. -/
def Chosen [Fintype S] (a : State S τ E) (t : τ) (k : Nat) : Prop :=
  Own stamp a t k ∧ ∃ Q : Finset S, Majority Q ∧ ∀ v ∈ Q, k < a.ack v t

/-- A prefix that some term up to `t` has chosen. -/
def Committed [Fintype S] (a : State S τ E) (t : τ) (P : List E) : Prop :=
  P = [] ∨ ∃ u ≤ t, ∃ k, Chosen stamp a u k ∧ P <+: (a.book u).take (k + 1)

/-- Every entry was written by the leader of its term, on top of exactly the
entries that precede it here. -/
def Rooted (a : State S τ E) (L : List E) : Prop :=
  ∀ k e, L[k]? = some e → L.take (k + 1) <+: a.book (stamp e)

/-- The election comparison of two logs: later last term, or the same last
term and no shorter. -/
def UpToDate (L M : List E) : Prop :=
  ∀ e ∈ M.getLast?, ∃ f ∈ L.getLast?, stamp e < stamp f ∨ stamp e = stamp f ∧ M.length ≤ L.length

end

open Classical in
/-- Keep a log that already has the prefix, else fall back to the prefix. -/
noncomputable def adopt {E : Type*} (P L : List E) : List E :=
  if P <+: L then L else P

theorem adopt_of_isPrefix {E : Type*} {P L : List E} (part : P <+: L) : adopt P L = L :=
  if_pos part

theorem adopt_of_not_isPrefix {E : Type*} {P L : List E} (apart : ¬ P <+: L) : adopt P L = P :=
  if_neg apart

theorem prefix_adopt {E : Type*} (P L : List E) : P <+: adopt P L := by
  by_cases part : P <+: L
  · rwa [adopt_of_isPrefix part]
  · rw [adopt_of_not_isPrefix part]

section
variable {S τ E : Type*} [Fintype S] [DecidableEq S] [LinearOrder τ] (stamp : E → τ)

/-- Replace one member. -/
def State.setPeer (a : State S τ E) (v : S) (p : Peer τ E) : State S τ E :=
  { a with peer := Function.update a.peer v p }

def State.setVote (a : State S τ E) (v : S) (t : τ) (s : S) : State S τ E :=
  { a with vote := Function.update a.vote v (Function.update (a.vote v) t (some s)) }

def State.setAck (a : State S τ E) (v : S) (t : τ) (k : Nat) : State S τ E :=
  { a with ack := Function.update a.ack v (Function.update (a.ack v) t k) }

/-- Member `v` leads its term with the log it has. -/
def State.crown (a : State S τ E) (v : S) : State S τ E where
  origin := a.origin
  peer := Function.update a.peer v ⟨(a.peer v).term, .leader, (a.peer v).log⟩
  vote := a.vote
  asked := a.asked
  chief := Function.update a.chief (a.peer v).term (some v)
  book := Function.update a.book (a.peer v).term (a.peer v).log
  ack := Function.update a.ack v (Function.update (a.ack v) (a.peer v).term (a.peer v).log.length)

/-- Leader `v` writes one entry. -/
def State.write (a : State S τ E) (v : S) (e : E) : State S τ E where
  origin := a.origin
  peer := Function.update a.peer v ⟨(a.peer v).term, .leader, (a.peer v).log ++ [e]⟩
  vote := a.vote
  asked := a.asked
  chief := a.chief
  book := Function.update a.book (a.peer v).term ((a.peer v).log ++ [e])
  ack := Function.update a.ack v
    (Function.update (a.ack v) (a.peer v).term ((a.peer v).log.length + 1))

/-- What member `v` can do. A leader may be elected, write, and have its book
stored by members of its term; any member may move to a later term, vote once
in its term, or switch to a committed prefix of a term it has reached. -/
inductive Step (v : S) : State S τ E → State S τ E → Prop
  | advance {a : State S τ E} {t : τ} : (a.peer v).term < t →
      Step v a (a.setPeer v ⟨t, .follower, (a.peer v).log⟩)
  | stepDown {a : State S τ E} : Step v a (a.setPeer v ⟨(a.peer v).term, .follower, (a.peer v).log⟩)
  | campaign {a : State S τ E} {t : τ} : (a.peer v).term < t →
      Step v a ((a.setPeer v ⟨t, .candidate, (a.peer v).log⟩).setVote v t v)
  | ask {a : State S τ E} {t : τ} : t ≤ (a.peer v).term →
      Step v a { a with asked := fun s u L => a.asked s u L ∨ s = v ∧ u = t ∧ L = (a.peer v).log }
  | grant {a : State S τ E} {s : S} {L : List E} : a.asked s (a.peer v).term L →
      (a.vote v (a.peer v).term = none ∨ a.vote v (a.peer v).term = some s) →
      UpToDate stamp L (a.peer v).log → Step v a (a.setVote v (a.peer v).term s)
  | elect {a : State S τ E} {Q : Finset S} : (a.peer v).role = .candidate → Majority Q →
      (∀ w ∈ Q, a.vote w (a.peer v).term = some v) →
      Step v a (a.crown v)
  | append {a : State S τ E} {e : E} : (a.peer v).role = .leader → stamp e = (a.peer v).term →
      Step v a (a.write v e)
  | accept {a : State S τ E} {k : Nat} : (a.peer v).role = .follower →
      k ≤ (a.book (a.peer v).term).length →
      Step v a ((a.setPeer v ⟨(a.peer v).term, .follower,
        adopt ((a.book (a.peer v).term).take k) (a.peer v).log⟩).setAck
          v (a.peer v).term (max (a.ack v (a.peer v).term) k))
  | install {a : State S τ E} {P : List E} : Committed stamp a (a.peer v).term P →
      Step v a (a.setPeer v ⟨(a.peer v).term, (a.peer v).role, adopt P (a.peer v).log⟩)

end

section
variable {S τ E : Type*} [LinearOrder τ]

/-- The history only grows, and what a member stored in a term it has left
stays as it is. -/
structure Grows (a b : State S τ E) : Prop where
  origin : b.origin = a.origin
  term : ∀ v, (a.peer v).term ≤ (b.peer v).term
  vote : ∀ v t s, a.vote v t = some s → b.vote v t = some s
  asked : ∀ s t L, a.asked s t L → b.asked s t L
  chief : ∀ t s, a.chief t = some s → b.chief t = some s
  book : ∀ t, a.book t <+: b.book t
  ack : ∀ v t, a.ack v t ≤ b.ack v t
  frozen : ∀ v t, t < (a.peer v).term → b.ack v t = a.ack v t

theorem Grows.refl (a : State S τ E) : Grows a a :=
  ⟨rfl, fun _ => le_rfl, fun _ _ _ h => h, fun _ _ _ h => h, fun _ _ h => h,
    fun _ => List.prefix_rfl, fun _ _ => le_rfl, fun _ _ _ => rfl⟩

theorem Grows.trans {a b c : State S τ E} (first : Grows a b) (rest : Grows b c) : Grows a c where
  origin := rest.origin.trans first.origin
  term v := (first.term v).trans (rest.term v)
  vote v t s h := rest.vote v t s (first.vote v t s h)
  asked s t L h := rest.asked s t L (first.asked s t L h)
  chief t s h := rest.chief t s (first.chief t s h)
  book t := (first.book t).trans (rest.book t)
  ack v t := (first.ack v t).trans (rest.ack v t)
  frozen v t left := (rest.frozen v t (left.trans_le (first.term v))).trans (first.frozen v t left)

end

end DistSys.Replica
