import Mathlib.Data.List.Basic

namespace Skyext
set_option autoImplicit true

namespace Sproto

abbrev Pack := String

def errcodeRejected : Nat := 20

def errcodeInternal : Nat := 22

/-- What a response is encoded from: the value of the handler, or an error code in a field. -/
inductive Args (β : Type)
  | value (r : Option β)
  | errcode (field : String) (code : Nat)
  deriving DecidableEq

/-- A middleware that rejects does so with the text and, if it is a number, the value of its second
result. -/
inductive Middleware
  | pass
  | reject (err : String) (code : Option Nat)
  | raise (err : String)
  deriving DecidableEq

/-- What `with_request` does: it runs the body and hands its results on, answers from the cache,
refuses or raises with the body run before or not, or, in old modules, returns a single package. -/
inductive WithRequest
  | ran
  | cached (pack : Pack)
  | refused (ran : Bool) (reason : Option String) (code : Option Nat)
  | raised (ran : Bool) (err : String)
  | single (ran : Bool) (pack : Option Pack)
  | passed
  deriving DecidableEq

/-- What is registered for a request and how it behaves: `func` is the handler, `defaults` the
fields of the response in the schema, `cached` the entry of `g_reject_field`. -/
structure Handlers (β : Type) where
  func : Option (Except String (Option β)) := none
  getObj : Except String Unit := .ok ()
  middleware : List Middleware := []
  withRequest : Option WithRequest := none
  rejectClient : Option (Except String Unit) := none
  defaults : Except String (Option (List String)) := .ok none
  cached : Option (Option String) := none

abbrev ResponseCb (β : Type) := Args β → Except String Pack

structure Reply where
  pack : Option Pack := none
  reason : Option String := none
  code : Option Nat := none
  deriving DecidableEq

/-- The loop over the middleware, with the reply of the first that does not pass. -/
def runMiddleware : List Middleware → Option Reply
  | [] => none
  | .pass :: rest => runMiddleware rest
  | .reject err code :: _ =>
    some ⟨none, some ("middleware rejected: " ++ err), some (code.getD errcodeRejected)⟩
  | .raise err :: _ => some ⟨none, some ("middleware error: " ++ err), some errcodeInternal⟩

def dispatchUnlocked (h : Handlers β) (responseCb : Option (ResponseCb β)) : Except String Reply :=
  match h.func, h.getObj with
  | none, _ => .error "assertion failed!"
  | some _, .error err => .error err
  | some f, .ok _ =>
    match runMiddleware h.middleware, f with
    | some reply, _ => .ok reply
    | none, .error err => .error err
    | none, .ok r =>
      match responseCb with
      | none => .ok {}
      | some cb => (cb (.value r)).map fun pack => { pack := some pack }

def dispatchRequest (h : Handlers β) (responseCb : Option (ResponseCb β)) : Except String Reply :=
  match h.withRequest with
  | none => dispatchUnlocked h responseCb
  | some .ran => dispatchUnlocked h responseCb
  | some (.cached pack) => .ok { pack := some pack }
  | some (.refused _ reason code) =>
    .ok ⟨none, some (reason.getD "request rejected"), some (code.getD errcodeRejected)⟩
  | some (.raised _ err) => .error err
  | some (.single _ pack) => .ok { pack := pack }
  | some .passed => (dispatchUnlocked h responseCb).map fun reply => { pack := reply.pack }

def rejectFields : List String := ["errcode", "code"]

def responseErrcodeField (h : Handlers β) : Option String :=
  match h.cached, h.defaults with
  | some field, _ => field
  | none, .ok (some names) => rejectFields.find? (· ∈ names)
  | none, _ => none

/-- The calls of `reject_client`, which may raise. -/
def disconnectClient (h : Handlers β) (reason : String) : List String :=
  match h.rejectClient with
  | none => []
  | some _ => [reason]

/-- The frames handed to the sender and the calls of `reject_client`; `refusal` tells that the
frame comes from `reject_request`. -/
structure Result where
  frames : List (String × Pack) := []
  rejected : List String := []
  refusal : Bool := false
  deriving DecidableEq

def rejectRequest (h : Handlers β) (reason : String) (code : Nat)
    (responseCb : Option (ResponseCb β)) : Option Pack × List String :=
  match responseCb with
  | none => (none, [])
  | some cb =>
    match responseErrcodeField h with
    | none => (none, disconnectClient h reason)
    | some field =>
      match cb (.errcode field code) with
      | .ok pack => (some pack, [])
      | .error _ => (none, disconnectClient h reason)

def rawDispatch (requestName : String) (h : Handlers β) (responseCb : Option (ResponseCb β)) :
    Result :=
  let reply := match dispatchRequest h responseCb with
    | .ok reply => reply
    | .error _ => ⟨none, some "internal error", some errcodeInternal⟩
  match reply.pack with
  | some pack => { frames := [(requestName, pack)] }
  | none =>
    if responseCb.isSome ∨ reply.reason.isSome then
      let r := rejectRequest h (reply.reason.getD "request produced no response")
        (reply.code.getD errcodeInternal) responseCb
      { frames := (r.1.map (requestName, ·)).toList, rejected := r.2, refusal := true }
    else {}

def BodyCompletes (h : Handlers β) (responseCb : Option (ResponseCb β)) : Prop :=
  ∃ r cb, h.func = some (.ok r) ∧ h.getObj = .ok () ∧ (∀ m ∈ h.middleware, m = .pass) ∧
    responseCb = some cb ∧ ∃ pack, cb (.value r) = .ok pack

def RunsBody (h : Handlers β) : Prop :=
  match h.withRequest with
  | none | some .ran | some .passed => True
  | some (.cached _) => False
  | some (.refused ran _ _) | some (.raised ran _) | some (.single ran _) => ran = true

/-- A waiting client gets one answer or is disconnected once, a client that does not wait gets
nothing, and a refusal is never of a request that completed. -/
structure Answers (requestName : String) (h : Handlers β) (responseCb : Option (ResponseCb β))
    (r : Result) : Prop where
  waiting : responseCb.isSome →
    (∃ pack, r.frames = [(requestName, pack)]) ∧ r.rejected = [] ∨
      r.frames = [] ∧ ∃ reason, r.rejected = [reason]
  silent : responseCb = none → r.frames = []
  refused : r.refusal = true → r.frames ≠ [] → ¬ (RunsBody h ∧ BodyCompletes h responseCb)

def middlewareCode (ms : List Middleware) : Nat :=
  match ms.find? (· ≠ .pass) with
  | some (.reject _ code) => code.getD errcodeRejected
  | _ => errcodeInternal

def bodyCode (h : Handlers β) : Nat :=
  match h.func, h.getObj with
  | some _, .ok _ => middlewareCode h.middleware
  | _, _ => errcodeInternal

/-- The code a request is refused with. -/
def refusalCode (h : Handlers β) : Nat :=
  match h.withRequest with
  | some (.refused _ _ code) => code.getD errcodeRejected
  | none | some .ran => bodyCode h
  | _ => errcodeInternal

def HasPack (h : Handlers β) : Prop :=
  match h.withRequest with
  | some (.cached _) | some (.single _ (some _)) => True
  | _ => False

def Delivers (h : Handlers β) (cb : ResponseCb β) : Prop :=
  match h.withRequest with
  | none | some .ran | some .passed => BodyCompletes h (some cb)
  | _ => False

/-- The response has a field for the code of the refusal and is encoded with it. -/
def ErrorEncodes (h : Handlers β) (cb : ResponseCb β) : Prop :=
  ∃ field pack, responseErrcodeField h = some field ∧
    cb (.errcode field (refusalCode h)) = .ok pack

/-- A waiting client can be answered or disconnected, and what completed is not taken back with an
error; a client that does not wait has no package from the connection module. -/
def Served (h : Handlers β) : Option (ResponseCb β) → Prop
  | none => ¬ HasPack h
  | some cb => HasPack h ∨ Delivers h cb ∨
      (ErrorEncodes h cb → ¬ (RunsBody h ∧ BodyCompletes h (some cb))) ∧
        (ErrorEncodes h cb ∨ h.rejectClient.isSome)

theorem runMiddleware_spec (ms : List Middleware) :
    (runMiddleware ms = none ∧ ∀ m ∈ ms, m = .pass) ∨
      ¬ (∀ m ∈ ms, m = .pass) ∧
        ∃ reason, runMiddleware ms = some ⟨none, some reason, some (middlewareCode ms)⟩ := by
  induction ms with
  | nil => exact .inl ⟨rfl, by rintro m ⟨⟩⟩
  | cons m ms ih =>
    cases m with
    | pass =>
      have hcode : middlewareCode (.pass :: ms) = middlewareCode ms := by simp [middlewareCode]
      rw [hcode]
      simpa [runMiddleware] using ih
    | reject err code =>
      refine .inr ⟨?_, "middleware rejected: " ++ err, ?_⟩
      · intro hall
        cases hall _ List.mem_cons_self
      · simp [runMiddleware, middlewareCode]
    | raise err =>
      refine .inr ⟨?_, "middleware error: " ++ err, ?_⟩
      · intro hall
        cases hall _ List.mem_cons_self
      · simp [runMiddleware, middlewareCode]

theorem middlewareCode_pass (hall : ∀ m ∈ ms, m = .pass) : middlewareCode ms = errcodeInternal := by
  have hnone : ms.find? (· ≠ .pass) = none :=
    List.find?_eq_none.mpr fun m hm => by simp [hall m hm]
  rw [middlewareCode, hnone]

theorem dispatchUnlocked_waiting (h : Handlers β) (cb : ResponseCb β) :
    (BodyCompletes h (some cb) ∧ ∃ pack, dispatchUnlocked h (some cb) = .ok { pack := some pack }) ∨
      ¬ BodyCompletes h (some cb) ∧
        ((∃ err, dispatchUnlocked h (some cb) = .error err) ∧ bodyCode h = errcodeInternal ∨
          ∃ reason, dispatchUnlocked h (some cb) = .ok ⟨none, some reason, some (bodyCode h)⟩) := by
  cases hf : h.func with
  | none =>
    refine .inr ⟨?_, .inl ⟨⟨"assertion failed!", by simp [dispatchUnlocked, hf]⟩,
      by simp [bodyCode, hf]⟩⟩
    rintro ⟨r, _, hr, _⟩
    cases hf.symm.trans hr
  | some f =>
    cases hg : h.getObj with
    | error err =>
      refine .inr ⟨?_, .inl ⟨⟨err, by simp [dispatchUnlocked, hf, hg]⟩, by simp [bodyCode, hf, hg]⟩⟩
      rintro ⟨_, _, _, hok, _⟩
      cases hg.symm.trans hok
    | ok _ =>
      have hcode : bodyCode h = middlewareCode h.middleware := by simp [bodyCode, hf, hg]
      rcases runMiddleware_spec h.middleware with ⟨hrun, hall⟩ | ⟨hnot, reason, hrun⟩
      · have hinternal := hcode.trans (middlewareCode_pass hall)
        cases f with
        | error err =>
          refine .inr ⟨?_, .inl ⟨⟨err, by simp [dispatchUnlocked, hf, hg, hrun]⟩, hinternal⟩⟩
          rintro ⟨r, _, hr, _⟩
          cases hf.symm.trans hr
        | ok r =>
          cases hcb : cb (.value r) with
          | ok pack =>
            exact .inl ⟨⟨r, cb, hf, hg, hall, rfl, pack, hcb⟩, pack,
              by simp [dispatchUnlocked, hf, hg, hrun, hcb, Except.map]⟩
          | error err =>
            refine .inr ⟨?_, .inl ⟨⟨err, by simp [dispatchUnlocked, hf, hg, hrun, hcb, Except.map]⟩,
              hinternal⟩⟩
            rintro ⟨r', cb', hr, _, _, he, pack, hpack⟩
            cases he
            cases hf.symm.trans hr
            cases hcb.symm.trans hpack
      · refine .inr ⟨?_, .inr ⟨reason, by simp [dispatchUnlocked, hf, hg, hrun, hcode]⟩⟩
        rintro ⟨_, _, _, _, hall, _⟩
        exact hnot hall

theorem dispatchUnlocked_silent (h : Handlers β) (hr : dispatchUnlocked h none = .ok reply) :
    reply.pack = none := by
  unfold dispatchUnlocked at hr
  split at hr
  · cases hr
  · cases hr
  · split at hr
    · next hrun _ =>
      cases hr
      rcases runMiddleware_spec h.middleware with ⟨hnone, _⟩ | ⟨_, reason, hsome⟩
      · cases hrun.symm.trans hnone
      · cases hrun.symm.trans hsome
        rfl
    · cases hr
    · cases hr
      rfl

/-- What comes of a request that a client waits for. -/
def Outcome (h : Handlers β) (cb : ResponseCb β) : Prop :=
  (HasPack h ∨ Delivers h cb) ∧
      (∃ pack reply, dispatchRequest h (some cb) = .ok reply ∧ reply.pack = some pack) ∨
    ¬ (HasPack h ∨ Delivers h cb) ∧
      ((∃ err, dispatchRequest h (some cb) = .error err) ∧ refusalCode h = errcodeInternal ∨
        ∃ reason code, dispatchRequest h (some cb) = .ok ⟨none, reason, code⟩ ∧
          code.getD errcodeInternal = refusalCode h)

theorem outcome_of_body {h : Handlers β} {cb : ResponseCb β}
    (he : dispatchRequest h (some cb) = dispatchUnlocked h (some cb))
    (hiff : HasPack h ∨ Delivers h cb ↔ BodyCompletes h (some cb))
    (hcode : refusalCode h = bodyCode h) : Outcome h cb := by
  rw [Outcome, he, hiff, hcode]
  rcases dispatchUnlocked_waiting h cb with ⟨hc, pack, hp⟩ | ⟨hnot, herr | ⟨reason, hr⟩⟩
  · exact .inl ⟨hc, pack, _, hp, rfl⟩
  · exact .inr ⟨hnot, .inl herr⟩
  · exact .inr ⟨hnot, .inr ⟨some reason, some (bodyCode h), hr, rfl⟩⟩

theorem outcome (h : Handlers β) (cb : ResponseCb β) : Outcome h cb := by
  cases hw : h.withRequest with
  | none =>
    exact outcome_of_body (by simp [dispatchRequest, hw]) (by simp [HasPack, Delivers, hw])
      (by simp [refusalCode, hw])
  | some w =>
    cases w with
    | ran =>
      exact outcome_of_body (by simp [dispatchRequest, hw]) (by simp [HasPack, Delivers, hw])
        (by simp [refusalCode, hw])
    | cached pack =>
      exact .inl ⟨by simp [HasPack, hw], pack, { pack := some pack },
        by simp [dispatchRequest, hw], rfl⟩
    | refused ran reason code =>
      refine .inr ⟨by simp [HasPack, Delivers, hw], .inr ⟨some (reason.getD "request rejected"),
        some (code.getD errcodeRejected), ?_, ?_⟩⟩
      · simp [dispatchRequest, hw]
      · simp [refusalCode, hw]
    | raised ran err =>
      refine .inr ⟨by simp [HasPack, Delivers, hw], .inl ⟨⟨err, ?_⟩, ?_⟩⟩
      · simp [dispatchRequest, hw]
      · simp [refusalCode, hw]
    | single ran pack =>
      cases pack with
      | some pack =>
        exact .inl ⟨by simp [HasPack, hw], pack, { pack := some pack },
          by simp [dispatchRequest, hw], rfl⟩
      | none =>
        refine .inr ⟨by simp [HasPack, Delivers, hw], .inr ⟨none, none, ?_, ?_⟩⟩
        · simp [dispatchRequest, hw]
        · simp [refusalCode, hw]
    | passed =>
      have hiff : HasPack h ∨ Delivers h cb ↔ BodyCompletes h (some cb) := by
        simp [HasPack, Delivers, hw]
      have hcode : refusalCode h = errcodeInternal := by simp [refusalCode, hw]
      rw [Outcome, hiff, hcode]
      rcases dispatchUnlocked_waiting h cb with ⟨hc, pack, hp⟩ |
        ⟨hnot, ⟨⟨err, hr⟩, _⟩ | ⟨reason, hr⟩⟩
      · exact .inl ⟨hc, pack, { pack := some pack },
          by simp [dispatchRequest, hw, hp, Except.map], rfl⟩
      · exact .inr ⟨hnot, .inl ⟨⟨err, by simp [dispatchRequest, hw, hr, Except.map]⟩, rfl⟩⟩
      · exact .inr ⟨hnot, .inr ⟨none, none, by simp [dispatchRequest, hw, hr, Except.map], rfl⟩⟩

theorem rejectRequest_spec (h : Handlers β) (cb : ResponseCb β) (reason : String) :
    (ErrorEncodes h cb ∧
      ∃ pack, rejectRequest h reason (refusalCode h) (some cb) = (some pack, [])) ∨
    ¬ ErrorEncodes h cb ∧
      rejectRequest h reason (refusalCode h) (some cb) = (none, disconnectClient h reason) := by
  cases hf : responseErrcodeField h with
  | none =>
    refine .inr ⟨?_, by simp [rejectRequest, hf]⟩
    rintro ⟨field, _, hfield, _⟩
    cases hf.symm.trans hfield
  | some field =>
    cases hcb : cb (.errcode field (refusalCode h)) with
    | ok pack => exact .inl ⟨⟨field, pack, hf, hcb⟩, pack, by simp [rejectRequest, hf, hcb]⟩
    | error err =>
      refine .inr ⟨?_, by simp [rejectRequest, hf, hcb]⟩
      rintro ⟨field', pack, hfield, hpack⟩
      cases hf.symm.trans hfield
      cases hcb.symm.trans hpack

/-- A request of a waiting client gets its package or is refused with its code. -/
theorem rawDispatch_waiting (requestName : String) (h : Handlers β) (cb : ResponseCb β) :
    ((HasPack h ∨ Delivers h cb) ∧
      ∃ pack, rawDispatch requestName h (some cb) = { frames := [(requestName, pack)] }) ∨
    ¬ (HasPack h ∨ Delivers h cb) ∧ ∃ reason,
      rawDispatch requestName h (some cb) =
        { frames := ((rejectRequest h reason (refusalCode h) (some cb)).1.map
          (requestName, ·)).toList
          rejected := (rejectRequest h reason (refusalCode h) (some cb)).2
          refusal := true } := by
  rcases outcome h cb with ⟨hgot, pack, reply, hr, hp⟩ |
    ⟨hnot, ⟨⟨err, hr⟩, hcode⟩ | ⟨reason, code, hr, hcode⟩⟩
  · exact .inl ⟨hgot, pack, by simp [rawDispatch, hr, hp]⟩
  · exact .inr ⟨hnot, "internal error", by simp [rawDispatch, hr, hcode]⟩
  · refine .inr ⟨hnot, reason.getD "request produced no response", ?_⟩
    simp [rawDispatch, hr, hcode]

theorem dispatchRequest_silent (h : Handlers β) :
    HasPack h ∧ (∃ pack reply, dispatchRequest h none = .ok reply ∧ reply.pack = some pack) ∨
      ¬ HasPack h ∧ ∀ reply, dispatchRequest h none = .ok reply → reply.pack = none := by
  have hbody : ∀ reply, dispatchUnlocked h none = .ok reply → reply.pack = none :=
    fun _ hr => dispatchUnlocked_silent h hr
  cases hw : h.withRequest with
  | none => exact .inr ⟨by simp [HasPack, hw], by simpa [dispatchRequest, hw] using hbody⟩
  | some w =>
    cases w with
    | ran => exact .inr ⟨by simp [HasPack, hw], by simpa [dispatchRequest, hw] using hbody⟩
    | cached pack =>
      exact .inl ⟨by simp [HasPack, hw], pack, { pack := some pack },
        by simp [dispatchRequest, hw], rfl⟩
    | refused ran reason code =>
      refine .inr ⟨by simp [HasPack, hw], fun reply hr => ?_⟩
      simp only [dispatchRequest, hw, Except.ok.injEq] at hr
      rw [← hr]
    | raised ran err => exact .inr ⟨by simp [HasPack, hw], by simp [dispatchRequest, hw]⟩
    | single ran pack =>
      cases pack with
      | some pack =>
        exact .inl ⟨by simp [HasPack, hw], pack, { pack := some pack },
          by simp [dispatchRequest, hw], rfl⟩
      | none => exact .inr ⟨by simp [HasPack, hw], by simp [dispatchRequest, hw]⟩
    | passed =>
      refine .inr ⟨by simp [HasPack, hw], fun reply hr => ?_⟩
      cases hu : dispatchUnlocked h none with
      | error err =>
        simp [dispatchRequest, hw, hu, Except.map] at hr
      | ok reply' =>
        simp only [dispatchRequest, hw, hu, Except.map, Except.ok.injEq] at hr
        rw [← hr]
        exact hbody reply' hu

/-- A client that does not wait gets a frame only if the connection module has one. -/
theorem rawDispatch_silent (requestName : String) (h : Handlers β) :
    (rawDispatch requestName h none).frames = [] ↔ ¬ HasPack h := by
  rcases dispatchRequest_silent h with ⟨hp, pack, reply, hr, hpack⟩ | ⟨hnot, hnone⟩
  · simp [rawDispatch, hr, hpack, hp]
  · refine iff_of_true ?_ hnot
    cases hr : dispatchRequest h none with
    | error err => simp [rawDispatch, hr, rejectRequest]
    | ok reply =>
      simp only [rawDispatch, hr, hnone reply hr]
      split
      · simp [rejectRequest]
      · rfl

/-- Every request is answered as it should be exactly when the client can be served. -/
theorem dispatch_answers (requestName : String) (h : Handlers β)
    (responseCb : Option (ResponseCb β)) :
    Answers requestName h responseCb (rawDispatch requestName h responseCb) ↔
      Served h responseCb := by
  cases responseCb with
  | none =>
    constructor
    · intro ha
      exact (rawDispatch_silent requestName h).mp (ha.silent rfl)
    · intro hs
      refine ⟨by rintro ⟨⟩, fun _ => (rawDispatch_silent requestName h).mpr hs, ?_⟩
      rintro _ _ ⟨_, _, _, _, _, _, ⟨⟩, _⟩
  | some cb =>
    rcases rawDispatch_waiting requestName h cb with ⟨hgot, pack, hr⟩ | ⟨hnot, reason, hr⟩
    · rw [hr]
      refine iff_of_true ⟨fun _ => .inl ⟨⟨pack, rfl⟩, rfl⟩, by rintro ⟨⟩, by rintro ⟨⟩⟩ ?_
      exact hgot.elim .inl fun hd => .inr (.inl hd)
    · rw [hr]
      rcases rejectRequest_spec h cb reason with ⟨henc, pack, hrej⟩ | ⟨hno, hrej⟩
      · rw [hrej]
        constructor
        · intro ha
          exact .inr (.inr ⟨fun _ => ha.refused rfl (by simp), .inl henc⟩)
        · rintro (hp | hd | ⟨hlate, _⟩)
          · exact absurd (.inl hp) hnot
          · exact absurd (.inr hd) hnot
          · exact ⟨fun _ => .inl ⟨⟨pack, rfl⟩, rfl⟩, by rintro ⟨⟩, fun _ _ => hlate henc⟩
      · rw [hrej]
        constructor
        · intro ha
          rcases ha.waiting rfl with ⟨⟨_, hframes⟩, _⟩ | ⟨_, reason', hcall⟩
          · cases hframes
          · refine .inr (.inr ⟨fun he => absurd he hno, .inr ?_⟩)
            cases hc : h.rejectClient with
            | none => simp [disconnectClient, hc] at hcall
            | some _ => rfl
        · rintro (hp | hd | ⟨_, he | hc⟩)
          · exact absurd (.inl hp) hnot
          · exact absurd (.inr hd) hnot
          · exact absurd he hno
          · obtain ⟨call, hc⟩ := Option.isSome_iff_exists.mp hc
            refine ⟨fun _ => .inr ⟨rfl, reason, by simp [disconnectClient, hc]⟩, by rintro ⟨⟩, ?_⟩
            intro _ hne
            exact absurd rfl hne

/-- A client waits for a request that nobody has registered, whose response has no error field. -/
theorem request_swallowed : ¬ ∀ (requestName : String) (h : Handlers Nat)
    (responseCb : Option (ResponseCb Nat)),
    Answers requestName h responseCb (rawDispatch requestName h responseCb) := by
  intro h
  rcases (h "role.unknown" {} (some fun _ => .ok "")).waiting rfl with ⟨⟨_, hf⟩, _⟩ | ⟨_, _, hr⟩
  · cases hf
  · cases hr

/-- How `with_loaded_entity` ends: the entity is not loaded; or it is the client's no more, or the
body is run, and the lease is valid afterwards or not. -/
inductive Loaded
  | absent
  | revoked (valid : Bool)
  | entered (valid : Bool)
  deriving DecidableEq

/-- What `with_request` of the session layer looks at; `io` has the cached responses with their
request names and `min_cached_req_id`. -/
structure Session where
  bound : Bool
  ready : Bool
  io : Option (List (Nat × Pack × String) × Nat)
  loaded : Loaded

namespace Session

def errcodeExpired : Nat := 25

def errcodeConflict : Nat := 26

def enter (s : Session) : WithRequest :=
  match s.loaded with
  | .absent => .refused false (some "entity not loaded or lease expired") none
  | .revoked true => .refused false (some "client binding revoked") none
  | .revoked false => .refused false (some "entity lease expired during handler") none
  | .entered true => .ran
  | .entered false => .refused true (some "entity lease expired during handler") none

def withRequest (s : Session) (reqId : Option Nat) (requestName : String) : WithRequest :=
  if ¬ s.bound then .refused false (some "client not bound") none
  else if ¬ s.ready then .refused false (some "entity manager not ready") none
  else
    match s.io, reqId with
    | some (cache, minCachedReqId), some id =>
      match cache.lookup id with
      | some (pack, name) =>
        if name = requestName then .cached pack
        else
          .refused false (some "request id reused for a different request") (some errcodeConflict)
      | none =>
        if id < minCachedReqId then
          .refused false (some "response for this request id was already evicted")
            (some errcodeExpired)
        else s.enter
    | _, _ => s.enter

theorem withRequest_cases (s : Session) (reqId : Option Nat) (requestName : String) :
    (∃ pack, s.withRequest reqId requestName = .cached pack ∧ reqId.isSome) ∨
      (∃ reason code, s.withRequest reqId requestName = .refused false reason code) ∨
      s.withRequest reqId requestName = .ran ∨
      s.loaded = .entered false := by
  have henter : (∃ reason code, s.enter = .refused false reason code) ∨ s.enter = .ran ∨
      s.loaded = .entered false := by
    unfold enter
    split
    · exact .inl ⟨_, _, rfl⟩
    · exact .inl ⟨_, _, rfl⟩
    · exact .inl ⟨_, _, rfl⟩
    · exact .inr (.inl rfl)
    · next hl => exact .inr (.inr hl)
  unfold withRequest
  split
  · exact .inr (.inl ⟨_, _, rfl⟩)
  · split
    · exact .inr (.inl ⟨_, _, rfl⟩)
    · split
      · split
        · split
          · exact .inl ⟨_, rfl, rfl⟩
          · exact .inr (.inl ⟨_, _, rfl⟩)
        · split
          · exact .inr (.inl ⟨_, _, rfl⟩)
          · exact .inr henter
      · exact .inr henter

end Session

/-- The session layer, which can disconnect, serves every client of a host that gives requests
their ids together with the means to answer, as long as no lease is lost while a handler runs. -/
theorem session_served (h : Handlers β) (responseCb : Option (ResponseCb β)) (s : Session)
    (reqId : Option Nat) (hwith : h.withRequest = some (s.withRequest reqId requestName))
    (hreject : h.rejectClient.isSome) (hid : reqId.isSome = responseCb.isSome)
    (hlease : s.loaded ≠ .entered false) : Served h responseCb := by
  rcases s.withRequest_cases reqId requestName with ⟨pack, hw, hsome⟩ | ⟨reason, code, hw⟩ | hw | hl
  · rw [hw] at hwith
    cases responseCb with
    | none => cases hid.symm.trans hsome
    | some cb => exact .inl (by simp [HasPack, hwith])
  · rw [hw] at hwith
    cases responseCb with
    | none => simp [Served, HasPack, hwith]
    | some cb => exact .inr (.inr ⟨fun _ => by simp [RunsBody, hwith], .inr hreject⟩)
  · rw [hw] at hwith
    cases responseCb with
    | none => simp [Served, HasPack, hwith]
    | some cb =>
      by_cases hc : BodyCompletes h (some cb)
      · exact .inr (.inl (by simpa [Delivers, hwith] using hc))
      · exact .inr (.inr ⟨fun _ hrun => hc hrun.2, .inr hreject⟩)
  · exact absurd hl hlease

end Sproto
end Skyext
