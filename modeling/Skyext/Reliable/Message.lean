import Mathlib.Data.List.Sort
import Skyext.Lib.Machine

namespace Skyext
set_option autoImplicit true

inductive MsgStatus
  | pending
  | delivered
  | dead
  | discarded
  deriving DecidableEq

/-- A document of `entity_msg`, known by its position, which stands for its `msg_id`. `settled`
counts how often it has become delivered or dead. -/
structure ReliableMsg where
  seq : Nat
  cmd : String
  status : MsgStatus := .pending
  attempts : Option Nat := none
  lastError : Option String := none
  deadReason : Option String := none
  discardOperator : Option String := none
  settled : Nat := 0
  deriving DecidableEq

def defaultPageSize : Nat := 200
def defaultMaxAttempts : Nat := 5
def maxErrorLength : Nat := 2048

/-- `max_attempts`, given the configured number. -/
def maxAttempts (conf : Option Int) : Nat :=
  match conf with
  | some n => if n < 1 then defaultMaxAttempts else n.toNat
  | none => defaultMaxAttempts

def truncated (text : String) : String := (text.take maxErrorLength).toString

/-- The `find_and_modify` calls of `reliable_msg`. -/
inductive MsgRequest
  | markDelivered (i : Nat)
  | recordFailure (i : Nat) (err : String)
  | markDead (i : Nat) (reason : String)
  | replay (i : Nat)
  | discard (i : Nat) (operator : String)
  deriving DecidableEq

/-- What `modified_doc` finds in a reply; an error is a reply that never came. -/
inductive ModifiedDoc
  | doc (m : ReliableMsg)
  | notMatched
  deriving DecidableEq

def findAndModify (msgs : List ReliableMsg) (i : Nat) (status : MsgStatus)
    (update : ReliableMsg → ReliableMsg) : List ReliableMsg × ModifiedDoc :=
  match msgs[i]? with
  | some m =>
    if m.status = status then (msgs.set i (update m), .doc (update m)) else (msgs, .notMatched)
  | none => (msgs, .notMatched)

namespace MsgRequest

def msg : MsgRequest → Nat
  | .markDelivered i => i
  | .recordFailure i _ => i
  | .markDead i _ => i
  | .replay i => i
  | .discard i _ => i

def fromStatus : MsgRequest → MsgStatus
  | .replay _ => .dead
  | .discard .. => .dead
  | _ => .pending

def update : MsgRequest → ReliableMsg → ReliableMsg
  | .markDelivered _, m => { m with status := .delivered, settled := m.settled + 1 }
  | .recordFailure _ err, m =>
    { m with attempts := some (m.attempts.getD 0 + 1), lastError := some (truncated err) }
  | .markDead _ reason, m =>
    { m with status := .dead, deadReason := some (truncated reason), settled := m.settled + 1 }
  | .replay _, m => { m with status := .pending, attempts := some 0, deadReason := none }
  | .discard _ operator, m => { m with status := .discarded, discardOperator := some operator }

def execute (r : MsgRequest) (msgs : List ReliableMsg) : List ReliableMsg × ModifiedDoc :=
  findAndModify msgs r.msg r.fromStatus r.update

end MsgRequest

/-- One page of `load_pending`: the first pending messages in the order of their `seq`. -/
def loadPending (msgs : List ReliableMsg) (limit : Nat) : List Nat :=
  (((List.range msgs.length).filter fun i =>
    msgs[i]?.any fun m => m.status = .pending).insertionSort
    fun i j => (msgs[i]?.map ReliableMsg.seq).getD 0 ≤ (msgs[j]?.map ReliableMsg.seq).getD 0).take
      limit

inductive MsgStatus.Moves : MsgStatus → MsgStatus → Prop
  | deliver : Moves .pending .delivered
  | kill : Moves .pending .dead
  | replay : Moves .dead .pending
  | discard : Moves .dead .discarded

/-- A message stays what it is but for its status, which moves as it may, and its count of
deliveries and deaths. -/
structure ReliableMsg.Evolves (m m' : ReliableMsg) : Prop where
  seq : m'.seq = m.seq
  status : m'.status = m.status ∨ m.status.Moves m'.status
  settled : m.settled ≤ m'.settled
  left : m.status = .pending → m'.status ≠ .pending → m.settled < m'.settled

def Evolved (msgs msgs' : List ReliableMsg) : Prop :=
  ∀ (i : Nat) m, msgs[i]? = some m → ∃ m', msgs'[i]? = some m' ∧ m.Evolves m'

theorem ReliableMsg.Evolves.refl (m : ReliableMsg) : m.Evolves m :=
  ⟨rfl, .inl rfl, Nat.le_refl _, fun h hn => absurd h hn⟩

theorem Evolved.refl (msgs : List ReliableMsg) : Evolved msgs msgs :=
  fun _ m hm => ⟨m, hm, .refl m⟩

theorem Evolved.append (msgs : List ReliableMsg) (m : ReliableMsg) :
    Evolved msgs (msgs ++ [m]) := by
  intro i x hx
  exact ⟨x, by rw [List.getElem?_append_left (List.getElem?_eq_some_iff.mp hx).1, hx], .refl x⟩

theorem MsgRequest.update_evolves (r : MsgRequest) {m : ReliableMsg} (h : m.status = r.fromStatus) :
    m.Evolves (r.update m) := by
  cases r with
  | markDelivered i =>
    exact ⟨rfl, .inr (h ▸ .deliver), Nat.le_succ _, fun _ _ => Nat.lt_succ_self _⟩
  | recordFailure i err =>
    exact ⟨rfl, .inl rfl, Nat.le_refl _, fun h hn => absurd h hn⟩
  | markDead i reason =>
    exact ⟨rfl, .inr (h ▸ .kill), Nat.le_succ _, fun _ _ => Nat.lt_succ_self _⟩
  | replay i =>
    exact ⟨rfl, .inr (h ▸ .replay), Nat.le_refl _, fun _ hn => absurd rfl hn⟩
  | discard i operator =>
    have hd : m.status = .dead := h
    exact ⟨rfl, .inr (hd ▸ .discard), Nat.le_refl _, fun hp => by cases hd.symm.trans hp⟩

theorem MsgRequest.execute_evolved (r : MsgRequest) (msgs : List ReliableMsg) :
    Evolved msgs (r.execute msgs).1 := by
  unfold execute findAndModify
  split
  · next m hm =>
    split
    · next hs =>
      intro i x hx
      by_cases hi : r.msg = i
      · subst hi
        cases hm.symm.trans hx
        refine ⟨r.update m, ?_, r.update_evolves hs⟩
        rw [List.getElem?_set_self (List.getElem?_eq_some_iff.mp hm).1]
      · exact ⟨x, by rw [List.getElem?_set_ne hi, hx], .refl x⟩
    · exact .refl msgs
  · exact .refl msgs

theorem loadPending_sorted (msgs : List ReliableMsg) (limit : Nat) :
    (loadPending msgs limit).Pairwise fun i j =>
      (msgs[i]?.map ReliableMsg.seq).getD 0 ≤ (msgs[j]?.map ReliableMsg.seq).getD 0 := by
  refine List.Pairwise.sublist (List.take_sublist _ _) ?_
  exact List.pairwise_insertionSort _ _

theorem mem_loadPending {msgs : List ReliableMsg} {limit : Nat}
    (h : i ∈ loadPending msgs limit) : ∃ m, msgs[i]? = some m ∧ m.status = .pending := by
  have hi := (List.mem_insertionSort _).mp (List.mem_of_mem_take h)
  obtain ⟨_, hp⟩ := List.mem_filter.mp hi
  cases hm : msgs[i]? with
  | none => simp [hm] at hp
  | some m => exact ⟨m, rfl, by simpa [hm] using hp⟩

end Skyext
