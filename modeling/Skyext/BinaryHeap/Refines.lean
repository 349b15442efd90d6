import Skyext.BinaryHeap.Unique

namespace Skyext
set_option autoImplicit true

namespace BinaryHeap
open HeapOrder

namespace Unique

inductive Op (V P : Type)
  | insert (value : V) (payload : P)
  | update (payload : P) (newValue : V)
  | remove (payload : P)
  | pop
  | peek
  | valueByPayload (payload : P)
  | size

inductive Outcome (V P : Type)
  | raised (error : String)
  | returned (value : Option V) (payload : Option P)
  | counted (size : Nat)

variable {V P : Type} [DecidableEq P]

/-- A call that raises an error leaves the object as it was. -/
def call (lt : V → V → Bool) (truth : V → Bool) (u : Unique V P) :
    Op V P → Outcome V P × Unique V P
  | .insert value payload =>
    match u.insertU lt value payload with
    | .ok u' => (.returned none none, u')
    | .error e => (.raised e, u)
  | .update payload newValue =>
    match u.updateU lt payload newValue with
    | .ok u' => (.returned none none, u')
    | .error e => (.raised e, u)
  | .remove payload =>
    match u.removeU lt payload with
    | .ok (some (value, payload), u') => (.returned value (some payload), u')
    | .ok (none, u') => (.returned none none, u')
    | .error e => (.raised e, u)
  | .pop =>
    match u.popU lt truth with
    | .ok (some (payload, value), u') => (.returned value payload, u')
    | .ok (none, u') => (.returned none none, u')
    | .error e => (.raised e, u)
  | .peek => (.returned u.peekU.2 u.peekU.1, u)
  | .valueByPayload payload => (.returned (u.valueByPayload payload) none, u)
  | .size => (.counted u.sizeU, u)

def run (lt : V → V → Bool) (truth : V → Bool) :
    Unique V P → List (Op V P) → List (Outcome V P) × Unique V P
  | u, [] => ([], u)
  | u, op :: ops =>
    let (out, u) := call lt truth u op
    let (outs, u) := run lt truth u ops
    (out :: outs, u)

/-- What a heap is for: a finite map from payloads to values, a least of which can be taken. A
least value that is `false` stays. -/
inductive MapStep (o : WeakOrder V) (truth : V → Bool) (m : P → Option V) :
    Op V P → Outcome V P → (P → Option V) → Prop
  | insert : m p = none →
    MapStep o truth m (.insert v p) (.returned none none) (Function.update m p (some v))
  | duplicate : m p = some x → MapStep o truth m (.insert v p) (.raised "duplicate payload") m
  | update : m p = some x →
    MapStep o truth m (.update p v) (.returned none none) (Function.update m p (some v))
  | missing : m p = none →
    MapStep o truth m (.update p v) (.raised "attempt to compare number with nil") m
  | remove : m p = some x →
    MapStep o truth m (.remove p) (.returned (some x) (some p)) (Function.update m p none)
  | absent : m p = none → MapStep o truth m (.remove p) (.returned none none) m
  | pop : m p = some v → (∀ q x, m q = some x → o.lt x v = false) → truth v = true →
    MapStep o truth m .pop (.returned (some v) (some p)) (Function.update m p none)
  | popFalse : m p = some v → (∀ q x, m q = some x → o.lt x v = false) → truth v = false →
    MapStep o truth m .pop (.returned none none) m
  | popEmpty : (∀ p, m p = none) → MapStep o truth m .pop (.returned none none) m
  | peek : m p = some v → (∀ q x, m q = some x → o.lt x v = false) →
    MapStep o truth m .peek (.returned (some v) (some p)) m
  | peekEmpty : (∀ p, m p = none) → MapStep o truth m .peek (.returned none none) m
  | value : MapStep o truth m (.valueByPayload p) (.returned (m p) none) m
  | size (ps : List P) : ps.Nodup → (∀ p, p ∈ ps ↔ m p ≠ none) →
    MapStep o truth m .size (.counted ps.length) m

inductive MapRun (o : WeakOrder V) (truth : V → Bool) :
    (P → Option V) → List (Op V P) → List (Outcome V P) → (P → Option V) → Prop
  | nil : MapRun o truth m [] [] m
  | cons : MapStep o truth m op out m' → MapRun o truth m' ops outs m'' →
    MapRun o truth m (op :: ops) (out :: outs) m''

variable {o : WeakOrder V} {truth : V → Bool} {u : Unique V P} {m : P → Option V}

omit [DecidableEq P] in
theorem Keeps.mem_payloads (h : Keeps o u m) (p : P) : p ∈ u.payloads ↔ m p ≠ none := by
  obtain ⟨hok, -, rfl⟩ := h
  rw [← hok.entries_snd, List.mem_map, Option.ne_none_iff_exists']
  constructor
  · rintro ⟨e, he, rfl⟩
    exact ⟨e.1, hok.value_iff.mpr he⟩
  · rintro ⟨v, hv⟩
    exact ⟨(v, p), hok.value_iff.mp hv, rfl⟩

theorem call_refines (h : Keeps o u m) (op : Op V P) :
    ∃ m', MapStep o truth m op (call o.lt truth u op).1 m' ∧
      Keeps o (call o.lt truth u op).2 m' := by
  cases op with
  | insert v p =>
    cases hp : m p with
    | none =>
      obtain ⟨u', hi, hk⟩ := h.insertU hp v
      simp only [call, hi]
      exact ⟨_, .insert hp, hk⟩
    | some x =>
      simp only [call, h.insertU_duplicate hp v]
      exact ⟨m, .duplicate hp, h⟩
  | update p v =>
    cases hp : m p with
    | none =>
      simp only [call, h.updateU_missing hp v]
      exact ⟨m, .missing hp, h⟩
    | some x =>
      obtain ⟨u', hu, hk⟩ := h.updateU hp v
      simp only [call, hu]
      exact ⟨_, .update hp, hk⟩
  | remove p =>
    cases hp : m p with
    | none =>
      simp only [call, h.removeU_absent hp]
      exact ⟨m, .absent hp, h⟩
    | some x =>
      obtain ⟨u', hr, hk⟩ := h.removeU hp
      simp only [call, hr]
      exact ⟨_, .remove hp, hk⟩
  | pop =>
    obtain ⟨hp, hnone⟩ | ⟨p, v, hp, hv, hleast⟩ := h.peekU
    · simp only [call, popU_untrue o.lt (show u.peekU.2.any truth = false by rw [hp]; rfl)]
      exact ⟨m, .popEmpty hnone, h⟩
    · cases ht : truth v with
      | true =>
        obtain ⟨u', hr, hk⟩ := h.popU hp ht
        simp only [call, hr]
        exact ⟨_, .pop hv hleast ht, hk⟩
      | false =>
        have huntrue : u.peekU.2.any truth = false := by rw [hp]; exact ht
        simp only [call, popU_untrue o.lt huntrue]
        exact ⟨m, .popFalse hv hleast ht, h⟩
  | peek =>
    obtain ⟨hp, hnone⟩ | ⟨p, v, hp, hv, hleast⟩ := h.peekU
    · simp only [call, hp]
      exact ⟨m, .peekEmpty hnone, h⟩
    · simp only [call, hp]
      exact ⟨m, .peek hv hleast, h⟩
  | valueByPayload p =>
    simp only [call, h.value]
    exact ⟨m, .value, h⟩
  | size =>
    simp only [call, sizeU, h.ok.length_eq]
    exact ⟨m, .size u.payloads h.ok.nodup h.mem_payloads, h⟩

theorem Keeps.run (h : Keeps o u m) (ops : List (Op V P)) :
    ∃ m', MapRun o truth m ops (run o.lt truth u ops).1 m' ∧
      Keeps o (run o.lt truth u ops).2 m' := by
  induction ops generalizing u m with
  | nil => exact ⟨m, .nil, h⟩
  | cons op ops ih =>
    obtain ⟨m₁, hstep, hk⟩ := call_refines h op
    obtain ⟨m₂, hrun, hk'⟩ := ih hk
    exact ⟨m₂, .cons hstep hrun, hk'⟩

omit [DecidableEq P] in
theorem Keeps.new (o : WeakOrder V) : Keeps o ({} : Unique V P) fun _ => none := by
  refine ⟨⟨rfl, fun p pos => ?_⟩, ordered_nil o, rfl⟩
  rw [item_nil]
  simp

end Unique

end BinaryHeap

end Skyext
