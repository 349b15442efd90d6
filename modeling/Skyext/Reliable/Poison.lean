import Skyext.Reliable.Message
import Mathlib.Logic.Function.Basic

namespace Skyext
set_option autoImplicit true

/-- A `find_and_modify` that was sent, by the sweep for a missing entity or else, and its reply
once Mongo has executed it. -/
structure SentRequest where
  request : MsgRequest
  sweep : Bool
  reply : Option ModifiedDoc
  deriving DecidableEq

/-- The request counts a failure of the message or kills it for its failures, and has not been
executed. -/
def SentRequest.judges (q : SentRequest) (i : Nat) : Bool :=
  q.reply.isNone && match q.request with
    | .recordFailure j _ => i = j
    | .markDead j _ => i = j && !q.sweep
    | _ => false

/-- Where `_deliver_one` or `_quarantine` is suspended; the numbers are positions of requests. -/
inductive TryPc
  | handler
  | saving
  | acking (r : Nat)
  | recording (r : Nat) (reason : String)
  | killing (r : Nat)
  | done
  deriving DecidableEq

/-- One attempt to deliver a message on a node that has the entity loaded. -/
structure DeliveryTry where
  node : Nat
  msg : Nat
  pc : TryPc
  deriving DecidableEq

/-- Where `_dead_letter_missing` is suspended: before it has the gate, before `load_pending`, or
within its page, which may be a full one. -/
inductive SweepPc
  | answered
  | loading
  | page (full : Bool) (rest : List Nat)
  | marking (full : Bool) (rest : List Nat) (r : Nat)
  | done
  deriving DecidableEq

/-- What a node does after `with_entity` has answered "not found". -/
structure MissingSweep where
  node : Nat
  pc : SweepPc
  deriving DecidableEq

/-- A message becomes dead: its failures since it was saved or last replayed, whether the document
did not exist when it was saved, and the nodes that have the entity in memory. -/
structure MsgDeath where
  msg : Nat
  sweep : Bool
  failures : Nat
  unborn : Bool
  loaded : List Nat
  deriving DecidableEq

/-- The messages of one entity, its document, and what every node does with them. Entity documents
are created and never removed; `failures` counts missing handlers and handler errors. -/
structure PoisonCluster where
  doc : Bool
  loaded : List Nat
  msgs : List ReliableMsg
  unborn : Nat → Bool
  failures : Nat → Nat
  requests : List SentRequest
  tries : List DeliveryTry
  sweeps : List MissingSweep
  deaths : List MsgDeath

/-- What differs between entity types and their nodes. -/
structure PoisonConf where
  max_attempts : Option Int
  handlers : List String
  auto_create : Bool

inductive PoisonAction
  | createDoc
  | save (cmd : String)
  | load (n : Nat)
  | forget (n : Nat)
  | notFound (n : Nat)
  | sweep (k : Nat) (ok : Bool)
  | sweepReply (k : Nat) (arrived : Bool)
  | deliver (n i : Nat)
  | handler (k : Nat) (err : Option String) (valid : Bool)
  | saved (k : Nat) (ok valid : Bool)
  | reply (k : Nat) (arrived : Bool)
  | replay (i : Nat)
  | discard (i : Nat) (operator : String)
  | execute (r : Nat)
  deriving DecidableEq

namespace PoisonCluster

variable (conf : PoisonConf)

def send (s : PoisonCluster) (r : MsgRequest) (sweep : Bool) : PoisonCluster :=
  { s with requests := s.requests ++ [⟨r, sweep, none⟩] }

def setTry (s : PoisonCluster) (k : Nat) (d : DeliveryTry) (pc : TryPc) : PoisonCluster :=
  { s with tries := s.tries.set k { d with pc := pc } }

def setSweep (s : PoisonCluster) (k : Nat) (w : MissingSweep) (pc : SweepPc) : PoisonCluster :=
  { s with sweeps := s.sweeps.set k { w with pc := pc } }

def failed (s : PoisonCluster) (i : Nat) : PoisonCluster :=
  { s with failures := Function.update s.failures i (s.failures i + 1) }

/-- The start of `_deliver_one`; without a handler it goes on to `_quarantine` at once. -/
def deliver (s : PoisonCluster) (n i : Nat) (cmd : String) : PoisonCluster :=
  if cmd ∈ conf.handlers then { s with tries := s.tries ++ [⟨n, i, .handler⟩] }
  else
    let reason := "no handler for command " ++ cmd
    { (s.failed i).send (.recordFailure i reason) false with
      tries := s.tries ++ [⟨n, i, .recording s.requests.length reason⟩] }

def handled (s : PoisonCluster) (k : Nat) (d : DeliveryTry) (err : Option String) (valid : Bool) :
    PoisonCluster :=
  match err with
  | some reason =>
    ((s.failed d.msg).send (.recordFailure d.msg reason) false).setTry k d
      (.recording s.requests.length reason)
  | none => s.setTry k d (if valid then .saving else .done)

/-- `_deliver_one` and `_quarantine` after the reply to the request they wait for, or none. -/
def replied (s : PoisonCluster) (k : Nat) (d : DeliveryTry) (reply : Option ModifiedDoc) :
    PoisonCluster :=
  match d.pc, reply with
  | .recording _ reason, some (.doc m) =>
    if maxAttempts conf.max_attempts ≤ m.attempts.getD 0 then
      (s.send (.markDead d.msg reason) false).setTry k d (.killing s.requests.length)
    else s.setTry k d .done
  | _, _ => s.setTry k d .done

def sweepOn (s : PoisonCluster) (k : Nat) (w : MissingSweep) (ok : Bool) : PoisonCluster :=
  match w.pc with
  | .answered => s.setSweep k w (if w.node ∈ s.loaded then .done else .loading)
  | .loading =>
    let page := Skyext.loadPending s.msgs defaultPageSize
    s.setSweep k w (if ok then .page (page.length = defaultPageSize) page else .done)
  | .page full [] => s.setSweep k w (if full then .loading else .done)
  | .page full (i :: rest) =>
    (s.send (.markDead i "entity not found") true).setSweep k w
      (.marking full rest s.requests.length)
  | _ => s

def replyTo (s : PoisonCluster) (r : Nat) : Option ModifiedDoc :=
  (s.requests[r]?).bind SentRequest.reply

/-- What a request executed on a matching message leaves in the records. -/
def noted (s : PoisonCluster) (q : SentRequest) : PoisonCluster :=
  match q.request with
  | .markDead i _ =>
    { s with deaths := ⟨i, q.sweep, s.failures i, s.unborn i, s.loaded⟩ :: s.deaths }
  | .replay i => { s with failures := Function.update s.failures i 0 }
  | _ => s

def execute (s : PoisonCluster) (r : Nat) (q : SentRequest) : PoisonCluster :=
  let (msgs, reply) := q.request.execute s.msgs
  let t := { s with msgs := msgs, requests := s.requests.set r { q with reply := some reply } }
  if reply = .notMatched then t else t.noted q

def awaited : TryPc → Option Nat
  | .acking r => some r
  | .recording r _ => some r
  | .killing r => some r
  | _ => none

def step (s : PoisonCluster) : PoisonAction → Option PoisonCluster
  | .createDoc => some { s with doc := true }
  | .save cmd =>
    some { s with
      msgs := s.msgs ++ [{ seq := s.msgs.length, cmd := cmd }]
      unborn := Function.update s.unborn s.msgs.length !s.doc
      failures := Function.update s.failures s.msgs.length 0 }
  | .load n =>
    if s.doc || conf.auto_create then some { s with doc := true, loaded := n :: s.loaded } else none
  | .forget n => some { s with loaded := s.loaded.erase n }
  | .notFound n =>
    if s.doc || conf.auto_create then none
    else some { s with sweeps := s.sweeps ++ [⟨n, .answered⟩] }
  | .sweep k ok => (s.sweeps[k]?).map fun w => s.sweepOn k w ok
  | .sweepReply k arrived =>
    match s.sweeps[k]? with
    | some w =>
      match w.pc with
      | .marking full rest r =>
        some (s.setSweep k w
          (if arrived ∧ (s.replyTo r).isSome then .page full rest else .done))
      | _ => none
    | none => none
  | .deliver n i =>
    if n ∈ s.loaded then (s.msgs[i]?).map fun m => s.deliver conf n i m.cmd else none
  | .handler k err valid =>
    match s.tries[k]? with
    | some d => if d.pc = .handler then some (s.handled k d err valid) else none
    | none => none
  | .saved k ok valid =>
    match s.tries[k]? with
    | some d =>
      if d.pc = .saving then
        some (if ok ∧ valid then
            (s.send (.markDelivered d.msg) false).setTry k d (.acking s.requests.length)
          else s.setTry k d .done)
      else none
    | none => none
  | .reply k arrived =>
    match s.tries[k]? with
    | some d =>
      (awaited d.pc).map fun r => s.replied conf k d (if arrived then s.replyTo r else none)
    | none => none
  | .replay i => if i < s.msgs.length then some (s.send (.replay i) false) else none
  | .discard i operator =>
    if i < s.msgs.length then some (s.send (.discard i operator) false) else none
  | .execute r =>
    match s.requests[r]? with
    | some q => if q.reply.isNone then some (s.execute r q) else none
    | none => none

/-- Nothing has been sent; the document may exist. -/
def Initial (s : PoisonCluster) : Prop :=
  s.loaded = [] ∧ s.msgs = [] ∧ s.requests = [] ∧ s.tries = [] ∧ s.sweeps = [] ∧ s.deaths = []

def system : Machine.System PoisonCluster PoisonAction := ⟨Initial, step conf⟩

/-- A sweep has not ended, or one of its requests has not been executed. -/
def sweeping (s : PoisonCluster) : Bool :=
  s.sweeps.any (fun w => w.pc ≠ .done) || s.requests.any fun q => q.sweep && q.reply.isNone

/-- An attempt has reached the limit and is about to kill the message. -/
def condemns (s : PoisonCluster) (i : Nat) (d : DeliveryTry) : Bool :=
  d.msg = i && match d.pc with
    | .recording r _ =>
      match s.replyTo r with
      | some (.doc m) => maxAttempts conf.max_attempts ≤ m.attempts.getD 0
      | _ => false
    | _ => false

def replayed (s : PoisonCluster) (r : Nat) : Option Nat :=
  match (s.requests[r]?).map SentRequest.request with
  | some (.replay i) => some i
  | _ => none

/-- A message is replayed only after every count and kill of it has been executed; while a sweep
goes on, nothing is saved for an entity that has a document by now, and no node loads it. -/
def Judged (s : PoisonCluster) : PoisonAction → Prop
  | .execute r => ∀ i ∈ s.replayed r,
      (s.requests.any fun q => q.judges i) = false ∧ s.tries.any (s.condemns conf i) = false
  | .save _ => s.doc = true → s.sweeping = false
  | .load _ => s.sweeping = false
  | _ => True

end PoisonCluster

end Skyext
