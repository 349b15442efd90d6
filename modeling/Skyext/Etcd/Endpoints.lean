import Mathlib.Data.List.Nodup
import Mathlib.Data.Nat.ModEq
import Mathlib.Logic.Function.Basic

namespace Skyext
set_option autoImplicit true

namespace Etcd

structure Endpoint where
  httpHost : String
  scheme : String
  host : String
  port : String
  deriving DecidableEq

/-- What `parse_endpoints` returns. -/
structure Endpoints where
  list : List Endpoint
  nonempty : list ≠ []

def initCountResize : Nat := 200000000

def maxAttempts : Nat := 3

def failTimeout : Int := 10

namespace Endpoints

abbrev Member (es : Endpoints) : Type := { e : Endpoint // e ∈ es.list }

theorem length_pos (es : Endpoints) : 0 < es.list.length := List.length_pos_iff.mpr es.nonempty

/-- `endpoints[n % #endpoints + 1]` -/
def nth (es : Endpoints) (n : Nat) : es.Member :=
  let i : Fin es.list.length := ⟨n % es.list.length, Nat.mod_lt n es.length_pos⟩
  ⟨es.list.get i, List.get_mem es.list i⟩

def all (es : Endpoints) : List es.Member := es.list.attach

end Endpoints

variable {es : Endpoints}

/-- The fields of a client that choose an endpoint. -/
structure Client (es : Endpoints) where
  initCount : Option (Fin initCountResize)
  failExpiredTime : String → Option Int
  workingEndpoint : Option es.Member

/-- The counter `ring_balancer` goes on from; `random` is one less than `math.random(100)`. -/
def count (random : Fin 100) : Option (Fin initCountResize) → Nat
  | none => random + 1
  | some c => c

def advance (random : Fin 100) (initCount : Option (Fin initCountResize)) : Fin initCountResize :=
  if h : count random initCount + 1 < initCountResize then ⟨count random initCount + 1, h⟩
  else ⟨0, by decide⟩

def ringBalancer (self : Client es) (random : Fin 100) : es.Member × Client es :=
  let c := advance random self.initCount
  (es.nth c, { self with initCount := some c })

def IsHealthy (self : Client es) (now : Int) (e : es.Member) : Prop :=
  ∀ expired ∈ self.failExpiredTime e.1.httpHost, expired < now

instance (self : Client es) (now : Int) : DecidablePred (IsHealthy self now) := fun _ =>
  inferInstanceAs (Decidable (∀ expired ∈ _, _))

def reportFailure (self : Client es) (now : Int) (httpHost : String) : Client es :=
  { self with
    failExpiredTime := Function.update self.failExpiredTime httpHost (some (now + failTimeout))
    workingEndpoint := none }

def chooseFrom (now : Int) (random : Fin 100) : Nat → Client es → Option es.Member × Client es
  | 0, self => (none, self)
  | n + 1, self =>
    let (endpoint, self) := ringBalancer self random
    if IsHealthy self now endpoint then (some endpoint, self) else chooseFrom now random n self

def chooseEndpoint (self : Client es) (now : Int) (random : Fin 100) : es.Member × Client es :=
  if es.list.length = 1 then (es.nth 0, self)
  else
    let (endpoint, self) := chooseFrom now random es.list.length self
    (endpoint.getD (es.nth 0), self)

def workingEndpoint (self : Client es) (now : Int) (random : Fin 100) : es.Member × Client es :=
  match self.workingEndpoint with
  | some endpoint => (endpoint, self)
  | none =>
    let (endpoint, self) := chooseEndpoint self now random
    (endpoint, { self with workingEndpoint := some endpoint })

def httpHosts (list : List es.Member) : List String := list.map fun e => e.1.httpHost

/-- One of the loops of `candidate_endpoints`; `seen` holds the hosts of the list. -/
def collect (p : es.Member → Prop) [DecidablePred p] (list : List es.Member) : List es.Member :=
  es.all.foldl
    (fun list e => if e.1.httpHost ∉ httpHosts list ∧ p e then list ++ [e] else list) list

def candidateEndpoints (self : Client es) (now : Int) (random : Fin 100) :
    List es.Member × Client es :=
  let (first, self) := workingEndpoint self now random
  if es.list.length = 1 then ([first], self)
  else ((collect (fun _ => True) (collect (IsHealthy self now) [first])).take maxAttempts, self)

/-- How a request ends: `httpc` raises an error, `prepare` fails before anything is sent, or the
endpoint answers. -/
inductive Outcome
  | raised (err : String)
  | unprepared (err : String)
  | answer (status : Nat) (body : Option String)
  deriving DecidableEq

/-- The end of one request, its time and what other coroutines did to the client until then. -/
structure Reply (es : Endpoints) where
  outcome : Outcome
  now : Int
  meanwhile : Client es → Client es

inductive Requested (J : Type)
  | raised (err : String)
  | response (status : Nat) (body : Option J)
  | failed (err : String) (retriable : Bool)

def request (decodeJson : String → Option J) : Outcome → Requested J
  | .raised err => .raised err
  | .unprepared err => .failed err false
  | .answer status body =>
    if 500 ≤ status then .failed ("invalid response code: " ++ toString status) true
    else if status = 401 then .failed ("insufficient credentials code: " ++ toString status) false
    else .response status (body.bind decodeJson)

/-- What `post` returns, with the endpoints it has tried. -/
structure Posted (es : Endpoints) (J : Type) where
  tried : List es.Member
  res : Option (Nat × Option J)
  err : Option String
  client : Client es

def Posted.after (p : Posted es J) (e : es.Member) : Posted es J := { p with tried := e :: p.tried }

def postFrom (decodeJson : String → Option J) (replies : Nat → Reply es) (k : Nat)
    (lastErr : Option String) (self : Client es) : List es.Member → Posted es J
  | [] => ⟨[], none, lastErr, self⟩
  | endpoint :: rest =>
    let self := (replies k).meanwhile self
    let failed := reportFailure self (replies k).now endpoint.1.httpHost
    match request decodeJson (replies k).outcome with
    | .raised err => (postFrom decodeJson replies (k + 1) (some err) failed rest).after endpoint
    | .response status body =>
      ⟨[endpoint], some (status, body), none, { self with workingEndpoint := some endpoint }⟩
    | .failed err true =>
      (postFrom decodeJson replies (k + 1) (some err) failed rest).after endpoint
    | .failed err false => ⟨[endpoint], none, some err, self⟩

def post (decodeJson : String → Option J) (self : Client es) (now : Int) (random : Fin 100)
    (replies : Nat → Reply es) : Posted es J :=
  let (list, self) := candidateEndpoints self now random
  postFrom decodeJson replies 0 none self list

/-- A transport failure or a 5xx. -/
def Outcome.Fails : Outcome → Prop
  | .raised _ => True
  | .unprepared _ => False
  | .answer status _ => 500 ≤ status

/-- A healthy endpoint is chosen, and a request tries the candidates one after the other. -/
structure Tries (decodeJson : String → Option J) (client : Client es) (now : Int) (random : Fin 100)
    (replies : Nat → Reply es) : Prop where
  chosen : (∃ e, IsHealthy client now e) → IsHealthy client now (chooseEndpoint client now random).1
  distinct : (httpHosts (candidateEndpoints client now random).1).Nodup
  most : (candidateEndpoints client now random).1.length ≤ 3
  first : (candidateEndpoints client now random).1.head? =
    some (client.workingEndpoint.getD (chooseEndpoint client now random).1)
  preferred : ∀ e, IsHealthy client now e →
    e.1.httpHost ∉ httpHosts (candidateEndpoints client now random).1 →
    ∀ c ∈ (candidateEndpoints client now random).1.tail, IsHealthy client now c
  order : (post decodeJson client now random replies).tried <+:
    (candidateEndpoints client now random).1
  goesOn : ∀ k, k + 1 < (post decodeJson client now random replies).tried.length →
    (replies k).outcome.Fails
  stops : (post decodeJson client now random replies).tried.length <
    (candidateEndpoints client now random).1.length →
    ∃ k, (post decodeJson client now random replies).tried.length = k + 1 ∧
      ¬ (replies k).outcome.Fails

/-- The next values of the counter do not pass by every healthy endpoint where they start again
at 0. -/
def Passes (self : Client es) (now : Int) (random : Fin 100) : Prop :=
  es.list.length = 1 ∨ ((∃ e, IsHealthy self now e) → ∃ j < es.list.length,
    IsHealthy self now (es.nth ((count random self.initCount + 1 + j) % initCountResize)))

variable {self : Client es} {now : Int} {random : Fin 100} {list : List es.Member}

theorem count_lt (random : Fin 100) (initCount : Option (Fin initCountResize)) :
    count random initCount < initCountResize := by
  cases initCount with
  | none =>
    have hr := random.isLt
    simp only [count, initCountResize]
    omega
  | some c => exact c.isLt

theorem advance_val (initCount : Option (Fin initCountResize)) :
    (advance random initCount : Nat) = (count random initCount + 1) % initCountResize := by
  unfold advance
  split
  · next h => exact (Nat.mod_eq_of_lt h).symm
  · next h =>
    have hc := count_lt random initCount
    rw [show count random initCount + 1 = initCountResize by omega, Nat.mod_self]

theorem advance_reaches (random : Fin 100) (c : Fin initCountResize) :
    ∃ n, (fun o => some (advance random o))^[n] none = some c := by
  have hval (n : Nat) : count random ((fun o => some (advance random o))^[n] none) =
      (random + 1 + n) % initCountResize := by
    induction n with
    | zero => exact (Nat.mod_eq_of_lt (count_lt random none)).symm
    | succ n ih =>
      rw [Function.iterate_succ_apply']
      exact (advance_val _).trans (by rw [ih, Nat.mod_add_mod, Nat.add_assoc])
  have hr := random.isLt
  refine ⟨c + initCountResize - (random + 1), ?_⟩
  have hc := hval (c + initCountResize - (random + 1))
  have hpos : c + initCountResize - (random + 1) ≠ 0 := by
    simp only [initCountResize]
    omega
  obtain ⟨n, hn⟩ := Nat.exists_eq_succ_of_ne_zero hpos
  rw [hn, Function.iterate_succ_apply'] at hc ⊢
  refine congrArg some (Fin.ext (hc.trans ?_))
  have hsum : (random : Nat) + 1 + (c + initCountResize - (random + 1)) =
      (c : Nat) + initCountResize := by
    simp only [initCountResize]
    omega
  rw [← hn, hsum, Nat.add_mod_right, Nat.mod_eq_of_lt c.isLt]

theorem ringBalancer_nth (j : Nat) :
    es.nth ((count random (ringBalancer self random).2.initCount + 1 + j) % initCountResize) =
      es.nth ((count random self.initCount + 1 + (j + 1)) % initCountResize) := by
  have hcount : count random (ringBalancer self random).2.initCount =
      (count random self.initCount + 1) % initCountResize := advance_val self.initCount
  rw [hcount, Nat.add_assoc, Nat.mod_add_mod]
  congr 2
  omega

theorem chooseFrom_succ (n : Nat) (self : Client es) :
    chooseFrom now random (n + 1) self =
      if IsHealthy self now (ringBalancer self random).1 then
        (some (ringBalancer self random).1, (ringBalancer self random).2)
      else chooseFrom now random n (ringBalancer self random).2 := rfl

/-- The loop finds the first healthy endpoint among those its values of the counter point at. -/
theorem chooseFrom_spec (now : Int) (random : Fin 100) (n : Nat) (self : Client es) :
    (∀ e ∈ (chooseFrom now random n self).1, IsHealthy self now e ∧ ∃ j < n,
        e = es.nth ((count random self.initCount + 1 + j) % initCountResize)) ∧
      ((chooseFrom now random n self).1 = none → ∀ j < n,
        ¬ IsHealthy self now (es.nth
          ((count random self.initCount + 1 + j) % initCountResize))) := by
  induction n generalizing self with
  | zero =>
    constructor
    · rintro _ ⟨⟩
    · intro _ j hj
      exact absurd hj (Nat.not_lt_zero j)
  | succ n ih =>
    have hfirst : (ringBalancer self random).1 =
        es.nth ((count random self.initCount + 1 + 0) % initCountResize) :=
      congrArg es.nth (advance_val self.initCount)
    rw [chooseFrom_succ]
    by_cases hh : IsHealthy self now (ringBalancer self random).1
    · rw [if_pos hh]
      constructor
      · rintro _ ⟨⟩
        exact ⟨hh, 0, Nat.succ_pos n, hfirst⟩
      · rintro ⟨⟩
    · rw [if_neg hh]
      obtain ⟨hsome, hnone⟩ := ih (ringBalancer self random).2
      constructor
      · intro e he
        obtain ⟨hhe, j, hj, heq⟩ := hsome e he
        exact ⟨hhe, j + 1, Nat.succ_lt_succ hj, heq.trans (ringBalancer_nth j)⟩
      · intro he j hj
        cases j with
        | zero => exact hfirst ▸ hh
        | succ j =>
          rw [← ringBalancer_nth]
          exact hnone he j (Nat.lt_of_succ_lt_succ hj)

/-- The first endpoint is passed by on no account: either the counter starts again at 0, or its
values make up a whole round. -/
theorem nth_zero_passed (es : Endpoints) (h : c < initCountResize) :
    ∃ j < es.list.length, es.nth ((c + 1 + j) % initCountResize) = es.nth 0 := by
  have hpos := es.length_pos
  have hnth {m : Nat} (hm : m % es.list.length = 0) : es.nth m = es.nth 0 := by
    simp only [Endpoints.nth, hm, Nat.zero_mod]
  by_cases hc : c + es.list.length < initCountResize
  · have hlt := Nat.mod_lt c hpos
    refine ⟨es.list.length - 1 - c % es.list.length, by omega, hnth ?_⟩
    have hdiv := Nat.div_add_mod c es.list.length
    have hsum : c + 1 + (es.list.length - 1 - c % es.list.length) =
        es.list.length * (c / es.list.length + 1) := by
      rw [Nat.mul_add, Nat.mul_one]
      omega
    have hlast : c + 1 + (es.list.length - 1 - c % es.list.length) < initCountResize := by omega
    rw [Nat.mod_eq_of_lt hlast, hsum, Nat.mul_mod_right]
  · refine ⟨initCountResize - 1 - c, by omega, hnth ?_⟩
    rw [show c + 1 + (initCountResize - 1 - c) = initCountResize by omega, Nat.mod_self,
      Nat.zero_mod]

theorem nth_surjective (e : es.Member) : ∃ p < es.list.length, es.nth p = e := by
  obtain ⟨p, hp, he⟩ := List.getElem_of_mem e.2
  refine ⟨p, hp, Subtype.ext ?_⟩
  simp [Endpoints.nth, Nat.mod_eq_of_lt hp, he]

theorem nth_congr {m m' : Nat} (h : m % es.list.length = m' % es.list.length) :
    es.nth m = es.nth m' := by
  simp only [Endpoints.nth, h]

theorem exists_step (n c : Nat) (hn : 0 < n) (p : Nat) : ∃ j < n, (c + 1 + j) % n = p % n := by
  have hlt := Nat.mod_lt (c + 1) hn
  refine ⟨(p + (n - (c + 1) % n)) % n, Nat.mod_lt _ hn, ?_⟩
  have hdiv := Nat.div_add_mod (c + 1) n
  rw [Nat.add_mod_mod, show c + 1 + (p + (n - (c + 1) % n)) = p + n * ((c + 1) / n + 1) by
    rw [Nat.mul_add, Nat.mul_one]
    omega, Nat.add_mul_mod_self_left]

theorem chosen_iff : ((∃ e, IsHealthy self now e) →
    IsHealthy self now (chooseEndpoint self now random).1) ↔ Passes self now random := by
  unfold chooseEndpoint Passes
  by_cases hlen : es.list.length = 1
  · rw [if_pos hlen]
    refine iff_of_true ?_ (.inl hlen)
    rintro ⟨e, he⟩
    obtain ⟨p, hp, rfl⟩ := nth_surjective e
    rwa [show p = 0 by omega] at he
  · rw [if_neg hlen]
    obtain ⟨hsome, hnone⟩ := chooseFrom_spec now random es.list.length self
    constructor
    · intro h
      refine .inr fun he => ?_
      cases hc : (chooseFrom now random es.list.length self).1 with
      | some e =>
        obtain ⟨hh, j, hj, rfl⟩ := hsome e hc
        exact ⟨j, hj, hh⟩
      | none =>
        obtain ⟨j, hj, hzero⟩ := nth_zero_passed es (count_lt random self.initCount)
        have hfirst := h he
        simp only [hc, Option.getD_none] at hfirst
        exact ⟨j, hj, hzero ▸ hfirst⟩
    · intro h he
      obtain ⟨j, hj, hh⟩ := h.resolve_left hlen he
      cases hc : (chooseFrom now random es.list.length self).1 with
      | some e =>
        simp only [hc, Option.getD_some]
        exact (hsome e hc).1
      | none => exact absurd hh (hnone hc j hj)

/-- Every endpoint is passed while the counter does not start again. -/
theorem passes_of_lt (h : count random self.initCount + es.list.length < initCountResize) :
    Passes self now random := by
  refine .inr ?_
  rintro ⟨e, he⟩
  obtain ⟨p, hp, rfl⟩ := nth_surjective e
  obtain ⟨j, hj, hmod⟩ := exists_step es.list.length (count random self.initCount) es.length_pos p
  have hlast : count random self.initCount + 1 + j < initCountResize := by omega
  refine ⟨j, hj, ?_⟩
  rwa [Nat.mod_eq_of_lt hlast, nth_congr hmod]

theorem passes_of_dvd (h : es.list.length ∣ initCountResize) : Passes self now random := by
  refine .inr ?_
  rintro ⟨e, he⟩
  obtain ⟨p, hp, rfl⟩ := nth_surjective e
  obtain ⟨j, hj, hmod⟩ := exists_step es.list.length (count random self.initCount) es.length_pos p
  refine ⟨j, hj, ?_⟩
  rwa [nth_congr ((Nat.mod_mod_of_dvd _ h).trans hmod)]

theorem httpHosts_append (l m : List es.Member) : httpHosts (l ++ m) = httpHosts l ++ httpHosts m :=
  List.map_append

theorem mem_httpHosts {e : es.Member} (h : e ∈ list) : e.1.httpHost ∈ httpHosts list :=
  List.mem_map_of_mem h

/-- A loop of `candidate_endpoints` adds endpoints for which `p` holds until all of them are
there. -/
theorem collect_spec (p : es.Member → Prop) [DecidablePred p] (hnodup : (httpHosts list).Nodup) :
    ∃ added, collect p list = list ++ added ∧ (∀ e ∈ added, p e) ∧
      (httpHosts (collect p list)).Nodup ∧
      ∀ e, p e → e.1.httpHost ∈ httpHosts (collect p list) := by
  suffices h : ∀ l : List es.Member, ∃ added,
      l.foldl (fun list e => if e.1.httpHost ∉ httpHosts list ∧ p e then list ++ [e] else list)
        list = list ++ added ∧ (∀ e ∈ added, p e) ∧ (httpHosts (list ++ added)).Nodup ∧
        ∀ e ∈ l, p e → e.1.httpHost ∈ httpHosts (list ++ added) by
    obtain ⟨added, heq, hp, hn, hall⟩ := h es.all
    rw [collect, heq]
    exact ⟨added, rfl, hp, hn, fun e => hall e (List.mem_attach _ _)⟩
  intro l
  induction l generalizing list with
  | nil =>
    refine ⟨[], (List.append_nil _).symm, ?_, ?_, ?_⟩
    · rintro _ ⟨⟩
    · rwa [List.append_nil]
    · rintro _ ⟨⟩
  | cons x l ih =>
    rw [List.foldl_cons]
    split
    · next hx =>
      have hadd : (httpHosts (list ++ [x])).Nodup := by
        rw [httpHosts_append]
        refine hnodup.append (List.nodup_singleton _) fun host hhost hx' => ?_
        cases List.mem_singleton.mp hx'
        exact hx.1 hhost
      obtain ⟨added, heq, hp, hn, hall⟩ := ih hadd
      rw [List.append_assoc] at heq hn hall
      refine ⟨x :: added, heq, ?_, hn, ?_⟩
      · rintro e (_ | ⟨_, he⟩)
        · exact hx.2
        · exact hp e he
      · rintro e (_ | ⟨_, he⟩) hpe
        · exact mem_httpHosts (List.mem_append_right _ List.mem_cons_self)
        · exact hall e he hpe
    · next hx =>
      obtain ⟨added, heq, hp, hn, hall⟩ := ih hnodup
      refine ⟨added, heq, hp, hn, ?_⟩
      rintro e (_ | ⟨_, he⟩) hpe
      · have hseen : x.1.httpHost ∈ httpHosts list := by
          by_contra hs
          exact hx ⟨hs, hpe⟩
        rw [httpHosts_append]
        exact List.mem_append_left _ hseen
      · exact hall e he hpe

theorem workingEndpoint_fst : (workingEndpoint self now random).1 =
    self.workingEndpoint.getD (chooseEndpoint self now random).1 := by
  unfold workingEndpoint
  cases self.workingEndpoint <;> rfl

theorem chooseFrom_failExpiredTime (n : Nat) (self : Client es) :
    (chooseFrom now random n self).2.failExpiredTime = self.failExpiredTime := by
  induction n generalizing self with
  | zero => rfl
  | succ n ih =>
    rw [chooseFrom_succ]
    split
    · rfl
    · exact ih _

theorem chooseEndpoint_failExpiredTime :
    (chooseEndpoint self now random).2.failExpiredTime = self.failExpiredTime := by
  unfold chooseEndpoint
  split
  · rfl
  · exact chooseFrom_failExpiredTime _ _

theorem workingEndpoint_healthy (e : es.Member) :
    IsHealthy (workingEndpoint self now random).2 now e ↔ IsHealthy self now e := by
  have htime : (workingEndpoint self now random).2.failExpiredTime = self.failExpiredTime := by
    unfold workingEndpoint
    cases self.workingEndpoint with
    | some w => rfl
    | none => exact chooseEndpoint_failExpiredTime
  unfold IsHealthy
  rw [htime]

/-- The candidates: the working endpoint, then healthy ones, and others only after all of these. -/
theorem candidateEndpoints_spec (self : Client es) (now : Int) (random : Fin 100) :
    ∃ healthy others, (candidateEndpoints self now random).1 =
        ((workingEndpoint self now random).1 :: (healthy ++ others)).take maxAttempts ∧
      (httpHosts ((workingEndpoint self now random).1 :: (healthy ++ others))).Nodup ∧
      (∀ e ∈ healthy, IsHealthy self now e) ∧
      ∀ e, IsHealthy self now e →
        e.1.httpHost ∈ httpHosts ((workingEndpoint self now random).1 :: healthy) := by
  unfold candidateEndpoints
  by_cases hlen : es.list.length = 1
  · simp only [if_pos hlen]
    have honly (e : es.Member) : e = es.nth 0 := by
      obtain ⟨p, hp, rfl⟩ := nth_surjective e
      rw [show p = 0 by omega]
    refine ⟨[], [], rfl, List.nodup_singleton _, ?_, fun e _ => ?_⟩
    · rintro _ ⟨⟩
    · rw [honly e, ← honly (workingEndpoint self now random).1]
      exact mem_httpHosts List.mem_cons_self
  · simp only [if_neg hlen]
    obtain ⟨healthy, heq, hhealthy, hn, hall⟩ := collect_spec
      (IsHealthy (workingEndpoint self now random).2 now)
      (show (httpHosts [(workingEndpoint self now random).1]).Nodup from List.nodup_singleton _)
    obtain ⟨others, heq', _, hn', _⟩ := collect_spec (fun _ => True) hn
    rw [heq', heq] at hn'
    rw [heq', heq]
    refine ⟨healthy, others, rfl, hn', fun e he => ?_, fun e he => ?_⟩
    · exact (workingEndpoint_healthy e).mp (hhealthy e he)
    · have hmem := hall e ((workingEndpoint_healthy e).mpr he)
      rwa [heq] at hmem

theorem candidates_preferred {e c : es.Member} (he : IsHealthy self now e)
    (hout : e.1.httpHost ∉ httpHosts (candidateEndpoints self now random).1)
    (hc : c ∈ (candidateEndpoints self now random).1.tail) : IsHealthy self now c := by
  obtain ⟨healthy, others, heq, _, hhealthy, hall⟩ := candidateEndpoints_spec self now random
  rw [heq] at hout hc
  have hlong : 2 ≤ healthy.length := by
    -- the first candidates would be all that are healthy otherwise
    by_contra hshort
    refine hout ?_
    rw [← List.cons_append, List.take_append, List.take_of_length_le, httpHosts_append]
    · exact List.mem_append_left _ (hall e he)
    · rw [List.length_cons, maxAttempts]
      omega
  rw [maxAttempts, List.take_succ_cons, List.tail_cons, List.take_append_of_le_length hlong] at hc
  exact hhealthy c (List.mem_of_mem_take hc)

variable {decodeJson : String → Option J} {replies : Nat → Reply es} {e : es.Member}

theorem postFrom_fails (decodeJson : String → Option J) (h : (replies k).outcome.Fails)
    (lastErr : Option String) :
    ∃ err self', postFrom decodeJson replies k lastErr self (e :: list) =
      (postFrom decodeJson replies (k + 1) err self' list).after e := by
  rw [postFrom]
  cases ho : (replies k).outcome with
  | raised err => exact ⟨_, _, rfl⟩
  | unprepared err =>
    rw [ho] at h
    cases h
  | answer status body =>
    rw [ho] at h
    have h5 : 500 ≤ status := h
    simp only [request, if_pos h5]
    exact ⟨_, _, rfl⟩

theorem postFrom_stops (h : ¬ (replies k).outcome.Fails) (lastErr : Option String) :
    (postFrom decodeJson replies k lastErr self (e :: list)).tried = [e] := by
  rw [postFrom]
  cases ho : (replies k).outcome with
  | raised err =>
    rw [ho] at h
    exact absurd trivial h
  | unprepared err => rfl
  | answer status body =>
    rw [ho] at h
    have h5 : ¬ 500 ≤ status := h
    simp only [request, if_neg h5]
    by_cases h1 : status = 401
    · simp only [if_pos h1]
    · simp only [if_neg h1]

theorem postFrom_spec (decodeJson : String → Option J) (replies : Nat → Reply es) (k : Nat)
    (lastErr : Option String) (self : Client es) (list : List es.Member) :
    (postFrom decodeJson replies k lastErr self list).tried <+: list ∧
      (∀ i, i + 1 < (postFrom decodeJson replies k lastErr self list).tried.length →
        (replies (k + i)).outcome.Fails) ∧
      ((postFrom decodeJson replies k lastErr self list).tried.length < list.length →
        ∃ i, (postFrom decodeJson replies k lastErr self list).tried.length = i + 1 ∧
          ¬ (replies (k + i)).outcome.Fails) := by
  induction list generalizing k lastErr self with
  | nil =>
    refine ⟨List.prefix_rfl, fun i hi => ?_, fun h => ?_⟩
    · exact absurd hi (Nat.not_lt_zero _)
    · exact absurd h (Nat.not_lt_zero _)
  | cons e list ih =>
    by_cases hf : (replies k).outcome.Fails
    · obtain ⟨err, self', heq⟩ := postFrom_fails decodeJson hf lastErr
      obtain ⟨hstarts, hon, hstop⟩ := ih (k + 1) err self'
      rw [heq]
      refine ⟨(List.prefix_cons_inj e).mpr hstarts, fun i hi => ?_, fun h => ?_⟩
      · cases i with
        | zero => exact hf
        | succ i =>
          rw [show k + (i + 1) = k + 1 + i by omega]
          exact hon i (Nat.lt_of_succ_lt_succ hi)
      · obtain ⟨i, hi, hn⟩ := hstop (Nat.lt_of_succ_lt_succ h)
        refine ⟨i + 1, congrArg Nat.succ hi, ?_⟩
        rwa [show k + (i + 1) = k + 1 + i by omega]
    · rw [postFrom_stops hf lastErr]
      refine ⟨⟨list, rfl⟩, fun i hi => ?_, fun _ => ⟨0, rfl, hf⟩⟩
      exact absurd (Nat.lt_of_succ_lt_succ hi) (Nat.not_lt_zero i)

/-- Healthy endpoints are tried, unless the counter starts again at 0 and passes by them all. -/
theorem tries_iff (decodeJson : String → Option J) (self : Client es) (now : Int)
    (random : Fin 100) (replies : Nat → Reply es) :
    Tries decodeJson self now random replies ↔ Passes self now random := by
  refine ⟨fun h => chosen_iff.mp h.chosen, fun h => ?_⟩
  obtain ⟨healthy, others, heq, hn, _, _⟩ := candidateEndpoints_spec self now random
  obtain ⟨hstarts, hon, hstop⟩ := postFrom_spec decodeJson replies 0 none
    (candidateEndpoints self now random).2 (candidateEndpoints self now random).1
  constructor
  case chosen => exact chosen_iff.mpr h
  case distinct =>
    rw [heq]
    exact hn.sublist ((List.take_sublist _ _).map _)
  case most =>
    rw [heq]
    exact List.length_take_le _ _
  case first =>
    rw [heq, ← workingEndpoint_fst]
    rfl
  case preferred => exact fun e he hout c hc => candidates_preferred he hout hc
  case order => exact hstarts
  case goesOn =>
    intro k hk
    exact Nat.zero_add k ▸ hon k hk
  case stops =>
    intro hlt
    obtain ⟨k, hk, hf⟩ := hstop hlt
    exact ⟨k, hk, Nat.zero_add k ▸ hf⟩

/-- Three endpoints, of which only the last is healthy. -/
def threeEndpoints : Endpoints where
  list := [⟨"http://a:2379", "http", "a", "2379"⟩, ⟨"http://b:2379", "http", "b", "2379"⟩,
    ⟨"http://c:2379", "http", "c", "2379"⟩]
  nonempty := by decide

def lastHealthy : Client threeEndpoints where
  initCount := some ⟨199999998, by decide⟩
  failExpiredTime := fun host => if host = "http://c:2379" then none else some 10
  workingEndpoint := none

theorem chooseEndpoint_wraps :
    ¬ Tries (fun s => some s) lastHealthy 5 0 fun _ => ⟨.answer 200 none, 5, id⟩ := by
  intro h
  have hchosen := h.chosen ⟨threeEndpoints.nth 2, by decide +kernel⟩
  revert hchosen
  decide +kernel

end Etcd
end Skyext
