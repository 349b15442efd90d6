import Mathlib.Logic.Function.Basic
import Mathlib.Data.List.Basic

namespace Skyext
set_option autoImplicit true

namespace BinaryHeap

/-- Places of a list are counted from one, and a place it does not have holds nothing. -/
def item (xs : List α) (pos : Nat) : Option α := if pos = 0 then none else xs[pos - 1]?

/-- `xs[pos] = x`, which makes the list longer at the place after its last. -/
def put (xs : List α) (pos : Nat) (x : α) : List α :=
  if pos = xs.length + 1 then xs ++ [x] else xs.set (pos - 1) x

/-- `xs[a], xs[b] = xs[b], xs[a]` at two places of the list. -/
def exchange (xs : List α) (a b : Nat) : List α :=
  match item xs a, item xs b with
  | some x, some y => put (put xs a y) b x
  | _, _ => xs

/-- `xs[pos] = nil`; only the last place of a list is ever emptied. -/
def clear (xs : List α) (pos : Nat) : List α := if pos = xs.length then xs.dropLast else xs

/-- The heap object that `binaryHeap` makes, with the functions it is given. -/
structure Base (H V : Type) where
  values : H → List V
  setValue : H → Nat → V → H
  swap : H → Nat → Nat → H
  erase : H → Nat → H
  lt : V → V → Bool

namespace Base

variable {H V : Type} (b : Base H V)

/-- `lt` of the values at two places; it cannot compare `nil`. -/
def less (h : H) (i j : Nat) : Except String Bool :=
  match item (b.values h) i, item (b.values h) j with
  | some x, some y => .ok (b.lt x y)
  | _, _ => .error "attempt to compare nil"

def bubbleUp (h : H) (pos : Nat) : Except String H :=
  if 1 < pos then
    match b.less h pos (pos / 2) with
    | .error e => .error e
    | .ok false => .ok h
    | .ok true => bubbleUp (b.swap h (pos / 2) pos) (pos / 2)
  else .ok h
termination_by pos

def smaller (h : H) (last min c : Nat) : Except String Nat :=
  if c ≤ last then
    match b.less h c min with
    | .error e => .error e
    | .ok less => .ok (if less then c else min)
  else .ok min

def smallest (h : H) (last pos : Nat) : Except String Nat :=
  match b.smaller h last pos (2 * pos) with
  | .error e => .error e
  | .ok min => b.smaller h last min (2 * pos + 1)

theorem less_pos (hl : b.less h i j = .ok r) : 1 ≤ i := by
  unfold less at hl
  cases i with
  | zero => simp [item] at hl
  | succ i => omega

theorem smaller_cases {min : Nat} (hm : b.smaller h last min c = .ok m) :
    m = min ∨ m = c ∧ 1 ≤ c ∧ c ≤ last := by
  unfold smaller at hm
  split at hm
  · next hc =>
    split at hm
    · cases hm
    · next less hl =>
      cases hm
      cases less with
      | false => exact .inl rfl
      | true => exact .inr ⟨rfl, b.less_pos hl, hc⟩
  · cases hm
    exact .inl rfl

theorem smallest_cases (hm : b.smallest h last pos = .ok m) :
    m = pos ∨ (m = 2 * pos ∨ m = 2 * pos + 1) ∧ 1 ≤ m ∧ m ≤ last := by
  unfold smallest at hm
  split at hm
  · cases hm
  · next k hk =>
    obtain rfl | ⟨rfl, h1, hl⟩ := b.smaller_cases hm
    · obtain rfl | ⟨rfl, h1, hl⟩ := b.smaller_cases hk
      · exact .inl rfl
      · exact .inr ⟨.inl rfl, h1, hl⟩
    · exact .inr ⟨.inr rfl, h1, hl⟩

def sink (last : Nat) (h : H) (pos : Nat) : Except String H :=
  match _hm : b.smallest h last pos with
  | .error e => .error e
  | .ok min => if min = pos then .ok h else sink last (b.swap h pos min) min
termination_by last - pos
decreasing_by
  obtain h | ⟨h, hm⟩ := b.smallest_cases _hm
  · contradiction
  · omega

def sinkDown (h : H) (pos : Nat) : Except String H := b.sink (b.values h).length h pos

def update (h : H) (pos : Nat) (newValue : V) : Except String H :=
  if 1 ≤ pos ∧ pos ≤ (b.values h).length then do
    let h := b.setValue h pos newValue
    let h ← if 1 < pos then b.bubbleUp h pos else pure h
    if pos < (b.values h).length then b.sinkDown h pos else pure h
  else throw "illegal position"

def remove (h : H) (pos : Nat) : Except String (Option V × H) :=
  let last := (b.values h).length
  if pos < 1 then pure (none, h)
  else if pos < last then do
    let v := item (b.values h) pos
    let h := b.erase (b.swap h pos last) last
    let h ← b.bubbleUp h pos
    let h ← b.sinkDown h pos
    pure (v, h)
  else if pos = last then pure (item (b.values h) pos, b.erase h last)
  else pure (none, h)

def insert (h : H) (value : V) : Except String H :=
  let pos := (b.values h).length + 1
  b.bubbleUp (b.setValue h pos value) pos

end Base

/-- `plainHeap`: the list of values is the whole object. -/
def plain (lt : V → V → Bool) : Base (List V) V := ⟨id, put, exchange, clear, lt⟩

namespace Plain

variable {V : Type} (lt : V → V → Bool)

def update (h : List V) (pos : Nat) (newValue : V) : Except String (List V) :=
  (plain lt).update h pos newValue

def remove (h : List V) (pos : Nat) : Except String (Option V × List V) := (plain lt).remove h pos

def insert (h : List V) (value : V) : Except String (List V) := (plain lt).insert h value

def pop (h : List V) : Except String (Option V × List V) :=
  if item h 1 ≠ none then remove lt h 1 else pure (none, h)

def peek (h : List V) : Option V := item h 1

def size (h : List V) : Nat := h.length

end Plain

structure Unique (V P : Type) where
  values : List V := []
  payloads : List P := []
  reverse : P → Option Nat := fun _ => none

namespace Unique

variable {V P : Type} [DecidableEq P]

def setReverse (u : Unique V P) (p : P) (pos : Option Nat) : Unique V P :=
  { u with reverse := Function.update u.reverse p pos }

def swapU (u : Unique V P) (a b : Nat) : Unique V P :=
  match item u.payloads a, item u.payloads b with
  | some pla, some plb =>
    let u := (u.setReverse pla (some b)).setReverse plb (some a)
    { u with payloads := exchange u.payloads a b, values := exchange u.values a b }
  | _, _ => u

def eraseU (u : Unique V P) (pos : Nat) : Unique V P :=
  match item u.payloads pos with
  | some payload =>
    let u := u.setReverse payload none
    { u with payloads := clear u.payloads pos, values := clear u.values pos }
  | none => u

def base (lt : V → V → Bool) : Base (Unique V P) V :=
  ⟨values, fun u pos v => { u with values := put u.values pos v }, swapU, eraseU, lt⟩

variable (lt : V → V → Bool)

/-- `update` compares the position with a number before anything else. -/
def updateU (u : Unique V P) (payload : P) (newValue : V) : Except String (Unique V P) :=
  match u.reverse payload with
  | some pos => (base lt).update u pos newValue
  | none => throw "attempt to compare number with nil"

def insertU (u : Unique V P) (value : V) (payload : P) : Except String (Unique V P) :=
  if u.reverse payload = none then
    let pos := u.values.length + 1
    let u := u.setReverse payload (some pos)
    (base lt).insert { u with payloads := put u.payloads pos payload } value
  else throw "duplicate payload"

def removeU (u : Unique V P) (payload : P) : Except String (Option (Option V × P) × Unique V P) :=
  match u.reverse payload with
  | some pos => do
    let (v, u) ← (base lt).remove u pos
    pure (some (v, payload), u)
  | none => pure (none, u)

/-- `truth` is what a condition makes of a value: only `false` fails one. -/
def popU (truth : V → Bool) (u : Unique V P) :
    Except String (Option (Option P × Option V) × Unique V P) :=
  if (item u.values 1).any truth then do
    let payload := item u.payloads 1
    let (value, u) ← (base lt).remove u 1
    pure (some (payload, value), u)
  else pure (none, u)

def peekU (u : Unique V P) : Option P × Option V := (item u.payloads 1, item u.values 1)

def valueByPayload (u : Unique V P) (payload : P) : Option V :=
  (u.reverse payload).bind (item u.values)

def sizeU (u : Unique V P) : Nat := u.values.length

end Unique

end BinaryHeap

end Skyext
