import Mathlib.Data.Rat.Floor
import Skyext.Lib.Machine

namespace Skyext
set_option autoImplicit true

namespace Etcd
open Machine

/-- A call of `with_timeout` that has not returned; `first` tells that no other was in progress
when it began. -/
structure WithTimeout where
  saved : Option Int
  first : Bool
  deriving DecidableEq

/-- The variable `httpc.timeout` with the calls that are in progress and, as a record, the timeout
each request set and the one `httpc` read for it. -/
structure Transport where
  timeout : Option Int
  calls : List WithTimeout
  initial : Option Int
  reads : List (Int × Option Int)
  deriving DecidableEq

/-- A call runs up to its first suspension, or one that is in progress returns or raises. -/
inductive TransportAction
  | request (timeout : Rat)
  | finish (i : Nat)

namespace Transport

def ticks (timeout : Rat) : Int := max 1 ⌊timeout * 100⌋

def setTimeout (s : Transport) (timeout : Option Int) : Transport := { s with timeout := timeout }

def httpcRequest (s : Transport) (own : Int) : Transport :=
  { s with reads := s.reads ++ [(own, s.timeout)] }

def request (s : Transport) (timeout : Rat) : Transport :=
  let call := ⟨s.timeout, s.calls.isEmpty⟩
  let t := (s.setTimeout (some (ticks timeout))).httpcRequest (ticks timeout)
  { t with calls := call :: t.calls }

def finish (s : Transport) (i : Nat) (call : WithTimeout) : Transport :=
  { s.setTimeout call.saved with calls := s.calls.eraseIdx i }

def step (s : Transport) : TransportAction → Option Transport
  | .request timeout => some (s.request timeout)
  | .finish i => s.calls[i]?.map (s.finish i)

end Transport

def transport : System Transport TransportAction :=
  ⟨fun s => s = ⟨s.timeout, [], s.timeout, []⟩, Transport.step⟩

/-- Every request has read its own timeout, and without a call in progress the variable is as it
was at first. -/
structure Transport.Kept (s : Transport) : Prop where
  own : ∀ r ∈ s.reads, r.2 = some r.1
  restored : s.calls = [] → s.timeout = s.initial

/-- The call that ends a time of calls in progress is the one that began it. -/
def FirstEndsLast (s : Transport) : TransportAction → Prop
  | .request _ => True
  | .finish i => s.calls.length = 1 → ∀ call ∈ s.calls[i]?, call.first = true

instance (s : Transport) (a : TransportAction) : Decidable (FirstEndsLast s a) := by
  cases a <;> unfold FirstEndsLast <;> infer_instance

/-- A call that began alone has saved what was there at first. -/
structure Transport.Inv (s : Transport) : Prop extends s.Kept where
  saved : ∀ call ∈ s.calls, call.first = true → call.saved = s.initial

namespace Transport

variable {s t : Transport}

theorem Inv.request (h : s.Inv) (timeout : Rat) : (s.request timeout).Inv := by
  constructor
  · constructor
    · intro r hr
      rcases List.mem_append.mp hr with hr | hr
      · exact h.own r hr
      · cases List.mem_singleton.mp hr
        rfl
    · rintro ⟨⟩
  · intro call hcall hfirst
    rcases List.mem_cons.mp hcall with rfl | hcall
    · exact h.restored (List.isEmpty_iff.mp hfirst)
    · exact h.saved call hcall hfirst

theorem Inv.finish (h : s.Inv) (hi : s.calls[i]? = some call)
    (hlast : s.calls.length = 1 → call.first = true) : (s.finish i call).Inv := by
  have hmem : call ∈ s.calls := List.mem_of_getElem? hi
  constructor
  · constructor
    · exact h.own
    · intro hnil
      have hlen : (s.calls.eraseIdx i).length = 0 := by
        rw [show s.calls.eraseIdx i = [] from hnil]
        rfl
      rw [List.length_eraseIdx_of_lt (List.getElem?_eq_some_iff.mp hi).1] at hlen
      have hpos := List.length_pos_of_mem hmem
      exact h.saved call hmem (hlast (by omega))
  · intro other ho
    exact h.saved other (List.mem_of_mem_eraseIdx ho)

theorem Inv.step (h : s.Inv) (hok : FirstEndsLast s a) (ht : transport.step s a = some t) :
    t.Inv := by
  cases a with
  | request timeout =>
    cases ht
    exact h.request timeout
  | finish i =>
    obtain ⟨call, hi, rfl⟩ := Option.map_eq_some_iff.mp ht
    exact h.finish hi fun hlen => hok hlen call hi

end Transport

/-- What overlapping requests see of one another's timeouts. -/
theorem timeout_kept (h : transport.Reaches FirstEndsLast s) : s.Kept := by
  have hinv : s.Inv := by
    refine h.invariant (I := Transport.Inv) ?_ fun _ _ _ hi hok ht => hi.step hok ht
    intro s hs
    rw [hs]
    refine ⟨⟨?_, fun _ => rfl⟩, ?_⟩
    · intro r hr
      cases hr
    · intro call hcall
      cases hcall
  exact hinv.toKept

/-- Three requests overlap; the first to begin ends last. -/
def overlapping : List TransportAction :=
  [.request 5, .request 1, .request 2, .finish 1, .finish 0, .finish 0]

theorem timeout_kept_overlapping :
    (transport.run FirstEndsLast ⟨some 1000, [], some 1000, []⟩ overlapping
      (by decide +kernel)).Kept :=
  timeout_kept (transport.run_reaches FirstEndsLast overlapping (by exact rfl) (by decide +kernel))

/-- Of two requests the first ends first, and its timeout stays. -/
def leaking : List TransportAction := [.request 5, .request 1, .finish 1, .finish 0]

theorem timeout_leaks : ¬ ∀ s, transport.Reaches anyStep s → s.Kept := by
  intro h
  have hk := (h _ (transport.run_reaches anyStep (s := ⟨none, [], none, []⟩) leaking
    (by exact rfl) (by decide +kernel))).restored (by decide +kernel)
  exact absurd hk (by decide +kernel)

end Etcd
end Skyext
