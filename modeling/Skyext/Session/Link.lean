import Skyext.Lib.Machine
import Skyext.Session.Client

namespace Skyext
set_option autoImplicit true

/-- A package on its way to the client. `session` is the session that counted it; answers of the
login service and uncounted answers belong to none. -/
structure Frame where
  content : Content
  session : Option Nat
  deriving DecidableEq, Repr

inductive LoginMsg
  | opened (fd : Fd)
  | msg (fd : Fd) (r : Request)
  | disconnect (fd : Fd)
  deriving DecidableEq, Repr

/-- A request for which the login service has called the entity, or will. -/
structure LoginJob where
  fd : Fd
  request : Request
  deriving DecidableEq, Repr

/-- The answer of a job on its way back to the login service. -/
structure LoginResult where
  fd : Fd
  reqId : Nat
  reply : Reply
  deriving DecidableEq, Repr

inductive EntityMsg
  | msg (fd : Fd) (r : Request)
  | closed (fd : Fd)
  deriving DecidableEq, Repr

inductive EntityCmd
  | push (fd : Fd) (frame : Frame)
  | kick (fd : Fd)
  deriving DecidableEq, Repr

/-- What waits in the serial queue of the entity. A request remembers the record of the
connection it came over. -/
inductive QueueTask
  | bind (fd : Fd) (reqId : Nat)
  | resume (fd : Fd) (reqId : Nat) (nonce : Nonce) (recv : Nat)
  | closed (fd : Fd)
  | request (conn : Conn) (r : Request)
  deriving DecidableEq, Repr

/-- The task of the queue that is suspended: in its call to the gate, or in a handler. -/
inductive Running
  | bind (fd : Fd) (reqId : Nat) (answer : Option Bool)
  | resume (fd : Fd) (reqId : Nat) (nonce : Nonce) (recv : Nat) (answer : Option Bool)
  | request (conn : Conn) (r : Request)
  deriving DecidableEq, Repr

/-- What happened to the copies of a request within one session. -/
inductive CallEvent
  | started (session reqId : Nat)
  | finished (session reqId : Nat) (response : Option Pack)
  | served (session reqId : Nat) (response : Pack)
  | refused (session reqId : Nat) (code : ErrCode)
  deriving DecidableEq, Repr

structure LinkConf where
  session : SessionConf
  /-- The response of this protocol has a field for an error code. -/
  hasErrcode : Nat → Bool

def LinkConf.errcodeField (conf : LinkConf) : Proto → Bool
  | .login | .resume => true
  | .ping => false
  | .business name => conf.hasErrcode name

/-- One client, a gate, the login service, and one entity that stays loaded. `gate` says of each
connection the gate has whether it is bound to the entity; `opened` counts the connections so
far. The services send to the gate in order, each in its own. `gen` counts the sessions and `log`
holds the packages each has recorded. -/
structure SessionLink where
  client : Client
  opened : Nat
  gate : Fd → Option Bool
  up : Fd → List Request
  down : Fd → List Frame
  loginIn : List LoginMsg
  loginClients : Fd → Bool
  loginGates : Fd → Bool
  jobs : List LoginJob
  results : List LoginResult
  loginOut : List (Fd × Frame)
  entityIn : List EntityMsg
  entityOut : List EntityCmd
  service : SessionService
  queue : List QueueTask
  running : Option Running
  gen : Nat
  log : Nat → List Pack
  history : List CallEvent
  clock : Nat

inductive LinkAction
  | connect
  | loginParam (ok : Bool)
  | wake
  | timeout
  | call (name : Nat)
  | ping
  | pong
  | drop
  | deliver (fd : Fd)
  | gateRecv (fd : Fd)
  | gateLogin
  | gateEntity
  | gateBind
  | close (fd : Fd)
  | loginRecv
  | refuse (i : Nat) (code : ErrCode)
  | arrive (i : Nat)
  | reply (i : Nat)
  | entityRecv (size : Nat)
  | start (size : Nat)
  | answered
  | finish (result : Option (Reply × Nat)) (code : ErrCode) (size : Nat)
  | push (payload size : Nat)
  | elapse (ticks : Nat)
  deriving DecidableEq, Repr

namespace SessionLink

/-- The session key of a connection: there is one gate. -/
def keyOf (fd : Fd) : Key := ⟨0, fd⟩

/-- Installs what a handler of the client left and puts what it wrote on the wire. -/
def clientDid (s : SessionLink) (r : Client × List (Fd × Request)) : SessionLink :=
  { s with
    client := r.1
    up := r.2.foldl (fun up m => Function.update up m.1 (up m.1 ++ [m.2])) s.up }

def command (session : Option Nat) : GateCmd → EntityCmd
  | .push key pack => .push key.fd ⟨pack.content, session⟩
  | .kick key => .kick key.fd

/-- Installs what a function of the session layer left and sends its commands; the packages
among them belong to `session`. -/
def serviceDid (s : SessionLink) (r : SessionService × List GateCmd) (session : Option Nat) :
    SessionLink :=
  { s with service := r.1, entityOut := s.entityOut ++ r.2.map (command session) }

/-- Writes the package into the log if the session layer has recorded it. -/
def logged (s : SessionLink) (old : SessionService) (pack : Pack) : SessionLink :=
  if (old.io 0).map SessionIo.sent = (s.service.io 0).map SessionIo.sent then s
  else { s with log := Function.update s.log s.gen (s.log s.gen ++ [pack]) }

/-- `record_and_send` for the entity. -/
def record (conf : LinkConf) (s : SessionLink) (pack : Pack) : SessionLink :=
  (s.serviceDid (s.service.recordAndSend conf.session 0 pack) (some s.gen)).logged s.service pack

/-- A response leaves through `sender`. -/
def respond (conf : LinkConf) (s : SessionLink) (fd : Fd) (pack : Pack) (name : Proto) :
    SessionLink :=
  (s.serviceDid (s.service.sender conf.session (keyOf fd) pack name)
    (if SessionService.uncountedResponse name then none else some s.gen)).logged s.service pack

def note (s : SessionLink) (e : CallEvent) : SessionLink := { s with history := e :: s.history }

/-- `reject_request`: an error code where the protocol has a field for one, else a kick. -/
def reject (conf : LinkConf) (s : SessionLink) (fd : Fd) (r : Request) (code : ErrCode)
    (size : Nat) : SessionLink :=
  if conf.errcodeField r.param.proto then
    s.respond conf fd ⟨.response r.session ⟨some code, none, none, none⟩, size⟩ r.param.proto
  else s.serviceDid (s.service, s.service.kick (keyOf fd)) none

/-- `with_request` up to the queue. -/
def lookup (conf : LinkConf) (s : SessionLink) (conn : Conn) (r : Request) (size : Nat) :
    SessionLink :=
  match s.service.io conn.entity with
  | none => { s with queue := s.queue ++ [.request conn r] }
  | some io =>
    let s := { s with service := s.service.setIo conn.entity { io with lastSeen := s.clock } }
    match io.lookup r.session r.param.proto with
    | .hit pack =>
      (s.note (.served s.gen r.session pack)).respond conf conn.key.fd pack r.param.proto
    | .conflict =>
      (s.note (.refused s.gen r.session .REQUEST_CONFLICT)).reject conf conn.key.fd r
        .REQUEST_CONFLICT size
    | .expired =>
      (s.note (.refused s.gen r.session .REQUEST_EXPIRED)).reject conf conn.key.fd r
        .REQUEST_EXPIRED size
    | .miss => { s with queue := s.queue ++ [.request conn r] }

/-- A package of the client reaches the service of the entity, where `login` and `resume` have no
handler. -/
def receive (conf : LinkConf) (s : SessionLink) (fd : Fd) (r : Request) (size : Nat) :
    SessionLink :=
  match r.param with
  | .login | .resume _ _ => s.reject conf fd r .ENTITY_LOAD_FAILED size
  | .ping _ | .business _ =>
    match s.service.conns (keyOf fd) with
    | none => s.reject conf fd r .ENTITY_NOT_FOUND size
    | some conn => s.lookup conf conn r size

def complete (conf : LinkConf) (s : SessionLink) (conn : Conn) (r : Request)
    (result : Option Pack) (code : ErrCode) (size : Nat) : SessionLink :=
  let s := s.note (.finished s.gen r.session result)
  match result, s.service.io 0 with
  | some pack, some io =>
    let (io', cached) := io.cacheResponse conf.session r.session pack r.param.proto
    let s := { s with service := s.service.setIo 0 io' }
    if cached then s.respond conf conn.key.fd pack r.param.proto
    else s.reject conf conn.key.fd r .ENTITY_LOAD_FAILED size
  | some pack, none => s.respond conf conn.key.fd pack r.param.proto
  | none, _ => s.reject conf conn.key.fd r code size

/-- The handler of `ping`, which never waits. -/
def runPing (conf : LinkConf) (s : SessionLink) (conn : Conn) (r : Request) (recv size : Nat) :
    SessionLink :=
  let s := { s with service := s.service.ack 0 (some recv) }
  let sent := ((s.service.io 0).map SessionIo.sent).getD 0
  s.complete conf conn r
    (some ⟨.response r.session ⟨none, none, none, some sent⟩, size⟩) .ENTITY_LOAD_FAILED size

def runRequest (conf : LinkConf) (s : SessionLink) (conn : Conn) (r : Request) (size : Nat) :
    SessionLink :=
  if s.service.conns conn.key ≠ some conn then
    (s.note (.refused s.gen r.session .ENTITY_NOT_FOUND)).reject conf conn.key.fd r
      .ENTITY_NOT_FOUND size
  else
    let s := s.note (.started s.gen r.session)
    match r.param with
    | .ping recv => s.runPing conf conn r recv size
    | _ => { s with running := some (.request conn r) }

def startTask (conf : LinkConf) (s : SessionLink) (size : Nat) : QueueTask → SessionLink
  | .bind fd reqId =>
    { s.serviceDid (s.service.leaveOld 0 (keyOf fd)) none with
      running := some (.bind fd reqId none) }
  | .resume fd reqId nonce recv =>
    match SessionIo.resumeCheck (s.service.io 0) (some nonce) (some recv) with
    | .OK => { s with running := some (.resume fd reqId nonce recv none) }
    | code => { s with results := s.results ++ [⟨fd, reqId, ⟨some code, none, none, none⟩⟩] }
  | .closed fd => { s with service := s.service.unbindClosed 0 (keyOf fd) }
  | .request conn r => s.runRequest conf conn r size

def finishBind (s : SessionLink) (fd : Fd) (reqId : Nat) (bound : Bool) : SessionLink :=
  let r := s.service.bind (keyOf fd) 0 bound ⟨s.gen + 1, 0⟩ s.clock
  { s with
    service := r.1
    running := none
    gen := if bound then s.gen + 1 else s.gen
    results := s.results ++ [⟨fd, reqId, match r.2 with
      | some nonce => ⟨some .OK, some 0, some nonce, none⟩
      | none => ⟨some .SESSION_CLOSED, none, none, none⟩⟩] }

/-- The credential that replaces the current one. -/
def nextNonce (s : SessionLink) : Nonce :=
  ⟨s.gen, ((s.service.io 0).map fun io => io.nonce.count + 1).getD 0⟩

/-- A resume continues with the gate's answer, and replays. -/
def finishResume (s : SessionLink) (fd : Fd) (reqId recv : Nat) (bound : Bool) : SessionLink :=
  let (m, cmds, result) :=
    s.service.resume (keyOf fd) 0 bound (some recv) s.nextNonce s.clock
  let s := { s with
    running := none
    results := s.results ++ [⟨fd, reqId, ⟨some result.code, none, result.nonce, result.sent⟩⟩] }
  if result.code = .OK then
    s.serviceDid ((m.replay 0).1, cmds ++ (m.replay 0).2.1) (some s.gen)
  else s

/-- `client.sender`: after a login or a resume has succeeded one more answer goes out. -/
def loginSend (s : SessionLink) (fd : Fd) (reqId : Nat) (reply : Reply) : SessionLink :=
  if s.loginGates fd then
    { s with
      loginGates := if s.loginClients fd then s.loginGates
        else Function.update s.loginGates fd false
      loginOut := s.loginOut ++ [(fd, ⟨.response reqId reply, none⟩)] }
  else s

/-- The login service takes a message of the gate. Without a record of the client the handlers
of `login` and `resume` raise, and the protocols of the application have no handler here. -/
def loginReceive (conf : LinkConf) (s : SessionLink) : LoginMsg → SessionLink
  | .opened fd =>
    { s with
      loginClients := Function.update s.loginClients fd true
      loginGates := Function.update s.loginGates fd true }
  | .disconnect fd =>
    { s with
      loginClients := Function.update s.loginClients fd false
      loginGates := Function.update s.loginGates fd false }
  | .msg fd r =>
    let failed : Reply := ⟨some .ENTITY_LOAD_FAILED, none, none, none⟩
    match r.param with
    | .login | .resume _ _ =>
      if s.loginClients fd then { s with jobs := s.jobs ++ [⟨fd, r⟩] }
      else s.loginSend fd r.session failed
    | .ping _ => s.loginSend fd r.session ⟨none, none, none, some 0⟩
    | .business name => if conf.hasErrcode name then s.loginSend fd r.session failed else s

def enqueueJob (s : SessionLink) (job : LoginJob) : SessionLink :=
  match job.request.param with
  | .resume nonce recv =>
    { s with queue := s.queue ++ [.resume job.fd job.request.session nonce recv] }
  | _ => { s with queue := s.queue ++ [.bind job.fd job.request.session] }

def loginReply (s : SessionLink) (r : LoginResult) : SessionLink :=
  let s := if r.reply.code = some .OK then
    { s with loginClients := Function.update s.loginClients r.fd false } else s
  s.loginSend r.fd r.reqId r.reply

/-- `establish` goes on with a response, or without one when it has timed out. -/
def wake (c : Client) (timedOut : Bool) : Option (Client × List (Fd × Request)) :=
  match c.phase with
  | .resuming fd _ response =>
    if response.isSome = !timedOut then some (c.resumed fd response) else none
  | .loggingIn fd _ response =>
    if response.isSome = !timedOut then some (c.loggedIn fd response, []) else none
  | _ => none

def step (conf : LinkConf) (s : SessionLink) : LinkAction → Option SessionLink
  | .connect =>
    if s.client.phase = .idle ∧ s.client.conn = none then
      some ({ s with
        opened := s.opened + 1
        gate := Function.update s.gate s.opened (some false)
        loginIn := s.loginIn ++ [LoginMsg.opened s.opened] }.clientDid
          (s.client.establish s.opened))
    else none
  | .loginParam ok =>
    match s.client.phase with
    | .loginParam fd => some (s.clientDid (s.client.doLogin fd ok))
    | _ => none
  | .wake => (wake s.client false).map s.clientDid
  | .timeout => (wake s.client true).map s.clientDid
  | .call name => some (s.clientDid (s.client.request (.business name)))
  | .ping =>
    if s.client.online ∧ s.client.heartbeat = none then some (s.clientDid s.client.ping) else none
  | .pong => s.client.heartbeat.map fun h => s.clientDid (s.client.pong h, [])
  | .drop => s.client.conn.map fun fd => s.clientDid (s.client.drop fd, [])
  | .deliver fd =>
    match s.down fd with
    | [] => none
    | frame :: rest =>
      let s := { s with down := Function.update s.down fd rest }
      some (if s.client.conn = some fd then s.clientDid (s.client.handle frame.content, []) else s)
  | .gateRecv fd =>
    match s.up fd with
    | [] => none
    | r :: rest =>
      let s := { s with up := Function.update s.up fd rest }
      some (match s.gate fd with
      | none => s
      | some true => { s with entityIn := s.entityIn ++ [.msg fd r] }
      | some false => { s with loginIn := s.loginIn ++ [.msg fd r] })
  | .gateLogin =>
    match s.loginOut with
    | [] => none
    | (fd, frame) :: rest =>
      let s := { s with loginOut := rest }
      some (if (s.gate fd).isSome then
        { s with down := Function.update s.down fd (s.down fd ++ [frame]) } else s)
  | .gateEntity =>
    match s.entityOut with
    | [] => none
    | .kick _ :: rest => some { s with entityOut := rest }
    | .push fd frame :: rest =>
      let s := { s with entityOut := rest }
      some (if (s.gate fd).isSome then
        { s with down := Function.update s.down fd (s.down fd ++ [frame]) } else s)
  | .gateBind =>
    match s.running with
    | some (.bind fd reqId none) =>
      some { s with
        running := some (.bind fd reqId (some (s.gate fd).isSome))
        gate := Function.update s.gate fd ((s.gate fd).map fun _ => true) }
    | some (.resume fd reqId nonce recv none) =>
      some { s with
        running := some (.resume fd reqId nonce recv (some (s.gate fd).isSome))
        gate := Function.update s.gate fd ((s.gate fd).map fun _ => true) }
    | _ => none
  | .close fd =>
    (s.gate fd).map fun bound =>
      let s := { s with gate := Function.update s.gate fd none }
      if bound then { s with entityIn := s.entityIn ++ [.closed fd] }
      else { s with loginIn := s.loginIn ++ [.disconnect fd] }
  | .loginRecv =>
    match s.loginIn with
    | [] => none
    | m :: rest => some ({ s with loginIn := rest }.loginReceive conf m)
  | .refuse i code =>
    if code = .OK then none else
    (s.jobs[i]?).map fun job =>
      { s with
        jobs := s.jobs.eraseIdx i
        results := s.results ++
          [⟨job.fd, job.request.session, ⟨some code, none, none, none⟩⟩] }
  | .arrive i => (s.jobs[i]?).map fun job => { s with jobs := s.jobs.eraseIdx i }.enqueueJob job
  | .reply i =>
    (s.results[i]?).map fun r => { s with results := s.results.eraseIdx i }.loginReply r
  | .entityRecv size =>
    match s.entityIn with
    | [] => none
    | .closed fd :: rest =>
      let s := { s with entityIn := rest }
      some (if (s.service.conns (keyOf fd)).isSome then { s with queue := s.queue ++ [.closed fd] }
        else s)
    | .msg fd r :: rest => some ({ s with entityIn := rest }.receive conf fd r size)
  | .start size =>
    match s.running, s.queue with
    | none, task :: rest => some ({ s with queue := rest }.startTask conf size task)
    | _, _ => none
  | .answered =>
    match s.running with
    | some (.bind fd reqId (some bound)) => some (s.finishBind fd reqId bound)
    | some (.resume fd reqId _ recv (some bound)) => some (s.finishResume fd reqId recv bound)
    | _ => none
  | .finish result code size =>
    match s.running with
    | some (.request conn r) =>
      some ({ s with running := none }.complete conf conn r
        (result.map fun (p : Reply × Nat) => ⟨.response r.session p.1, p.2⟩) code size)
    | _ => none
  | .push payload size => some (s.record conf ⟨.push payload, size⟩)
  | .elapse ticks => some { s with clock := s.clock + ticks }

def empty : SessionLink :=
  ⟨.fresh, 0, fun _ => none, fun _ => [], fun _ => [], [], fun _ => false, fun _ => false, [], [],
    [], [], [], .fresh, [], none, 0, fun _ => [], [], 0⟩

def system (conf : LinkConf) : Machine.System SessionLink LinkAction := ⟨(· = empty), step conf⟩

/-- The client has logged in. -/
def loginRun : List LinkAction :=
  [.connect, .loginParam true, .gateRecv 0, .loginRecv, .loginRecv, .arrive 0, .start 0, .gateBind,
    .answered, .reply 0, .gateLogin, .deliver 0, .wake]

/-- The connection breaks, and the client has resumed up to the answer on its way back. -/
def resumeRun : List LinkAction :=
  loginRun ++ [.drop, .connect, .gateRecv 1, .loginRecv, .loginRecv, .arrive 0, .start 0,
    .gateBind, .answered, .gateEntity]

def standard : LinkConf := ⟨.standard, fun _ => true⟩

end SessionLink

end Skyext
