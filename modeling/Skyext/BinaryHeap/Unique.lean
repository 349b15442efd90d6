import Mathlib.Data.List.Nodup
import Skyext.BinaryHeap.Sift

namespace Skyext
set_option autoImplicit true

namespace BinaryHeap
open HeapOrder

namespace Unique

variable {V P : Type} {u : Unique V P} {p : P} {v : V}

/-- Every value has a payload, and `reverse` has the places of the payloads and no more. -/
structure Ok (u : Unique V P) : Prop where
  length_eq : u.values.length = u.payloads.length
  inverse : ∀ p pos, u.reverse p = some pos ↔ item u.payloads pos = some p

def entries (u : Unique V P) : List (V × P) := u.values.zip u.payloads

namespace Ok

theorem entries_fst (hok : u.Ok) : u.entries.map Prod.fst = u.values :=
  List.map_fst_zip (Nat.le_of_eq hok.length_eq)

theorem entries_snd (hok : u.Ok) : u.entries.map Prod.snd = u.payloads :=
  List.map_snd_zip (Nat.le_of_eq hok.length_eq.symm)

theorem entries_length (hok : u.Ok) : u.entries.length = u.payloads.length := by
  rw [← hok.entries_snd, List.length_map]

theorem item_fst (hok : u.Ok) (pos : Nat) :
    item u.values pos = (item u.entries pos).map Prod.fst := by
  rw [← item_map, hok.entries_fst]

theorem item_snd (hok : u.Ok) (pos : Nat) :
    item u.payloads pos = (item u.entries pos).map Prod.snd := by
  rw [← item_map, hok.entries_snd]

theorem item_inj (hok : u.Ok) (hi : item u.payloads i = some p) (hj : item u.payloads j = some p) :
    i = j := by
  rw [← hok.inverse] at hi hj
  rw [hi] at hj
  exact Option.some.inj hj

theorem nodup (hok : u.Ok) : u.payloads.Nodup := by
  rw [List.nodup_iff_injective_getElem]
  intro i j he
  have hi := item_get (show 1 ≤ i.val + 1 by omega) i.isLt
  have hj := item_get (show 1 ≤ j.val + 1 by omega) j.isLt
  have := hok.item_inj (hi.trans (congrArg some he)) hj
  omega

theorem reverse_none (hok : u.Ok) (p : P) : u.reverse p = none ↔ u.valueByPayload p = none := by
  cases hr : u.reverse p with
  | none => simp [valueByPayload, hr]
  | some pos =>
    have hp := (hok.inverse p pos).mp hr
    have hlen : pos ≤ u.values.length := by
      rw [hok.length_eq]
      exact item_le hp
    simp [valueByPayload, hr, item_get (item_pos hp) hlen]

theorem value_iff (hok : u.Ok) : u.valueByPayload p = some v ↔ (v, p) ∈ u.entries := by
  constructor
  · intro h
    obtain ⟨pos, hr, hv⟩ := Option.bind_eq_some_iff.mp h
    rw [hok.inverse, hok.item_snd] at hr
    rw [hok.item_fst] at hv
    obtain ⟨⟨x, y⟩, he, rfl⟩ := Option.map_eq_some_iff.mp hv
    rw [he] at hr
    cases hr
    exact item_mem he
  · intro h
    obtain ⟨pos, he⟩ := exists_item h
    have hr : u.reverse p = some pos := by rw [hok.inverse, hok.item_snd, he]; rfl
    rw [valueByPayload, hr, Option.bind_some, hok.item_fst, he]
    rfl

theorem set (hok : u.Ok) (pos : Nat) (v : V) : Ok { u with values := u.values.set pos v } :=
  ⟨by rw [List.length_set, hok.length_eq], hok.inverse⟩

variable [DecidableEq P]

theorem swapU (hok : u.Ok) (hi : 1 ≤ i) (hij : i < j) (hj : j ≤ u.payloads.length) :
    (u.swapU i j).Ok ∧ (u.swapU i j).entries = exchange u.entries i j := by
  have hil : i ≤ u.payloads.length := by omega
  have hpi := item_get hi hil
  have hpj := item_get (show 1 ≤ j by omega) hj
  generalize u.payloads[i - 1] = pla at hpi
  generalize u.payloads[j - 1] = plb at hpj
  have hne : pla ≠ plb := by
    rintro rfl
    have := hok.item_inj hpi hpj
    omega
  have hu : u.swapU i j =
      ⟨exchange u.values i j, exchange u.payloads i j,
        Function.update (Function.update u.reverse pla (some j)) plb (some i)⟩ := by
    simp only [Unique.swapU, hpi, hpj, setReverse]
  have hfst : exchange u.values i j = (exchange u.entries i j).map Prod.fst := by
    rw [← exchange_map, hok.entries_fst]
  have hsnd : exchange u.payloads i j = (exchange u.entries i j).map Prod.snd := by
    rw [← exchange_map, hok.entries_snd]
  constructor
  · constructor
    · simp only [hu, hfst, hsnd, List.length_map]
    · intro p pos
      simp only [hu, item_exchange hi hil (show 1 ≤ j by omega) hj (by omega), swap,
        Function.update_apply]
      have hinv := hok.inverse p pos
      have hinj (k : Nat) (hk : item u.payloads k = some p) (hp : item u.payloads pos = some p) :
        k = pos := hok.item_inj hk hp
      grind
  · simp only [hu, entries]
    exact (List.zip_of_prod hfst.symm hsnd.symm).symm

theorem eraseU (hok : u.Ok) (hlen : 1 ≤ u.payloads.length) :
    (u.eraseU u.payloads.length).Ok ∧
      (u.eraseU u.payloads.length).entries = u.entries.dropLast := by
  have hlast := item_get hlen (Nat.le_refl _)
  generalize u.payloads[u.payloads.length - 1] = payload at hlast
  have hu : u.eraseU u.payloads.length =
      ⟨u.values.dropLast, u.payloads.dropLast, Function.update u.reverse payload none⟩ := by
    simp only [Unique.eraseU, hlast, setReverse, clear, hok.length_eq, if_true]
  have hfst : u.values.dropLast = u.entries.dropLast.map Prod.fst := by
    rw [List.map_dropLast, hok.entries_fst]
  have hsnd : u.payloads.dropLast = u.entries.dropLast.map Prod.snd := by
    rw [List.map_dropLast, hok.entries_snd]
  constructor
  · constructor
    · simp only [hu, hfst, hsnd, List.length_map]
    · intro p pos
      simp only [hu, item_dropLast, Function.update_apply]
      have hinv := hok.inverse p pos
      have hinj (hp : item u.payloads pos = some p)
        (hq : item u.payloads u.payloads.length = some p) : pos = u.payloads.length :=
        hok.item_inj hp hq
      grind
  · simp only [hu, entries]
    exact (List.zip_of_prod hfst.symm hsnd.symm).symm

end Ok

/-- A heap holds its values with their payloads. -/
def view [DecidableEq P] (lt : V → V → Bool) : View (base (P := P) lt) (V × P) where
  Ok := Ok
  entries := entries
  key := Prod.fst
  values_eq hok := hok.entries_fst.symm
  swap_ok hok hi hij hj := (hok.swapU hi hij (hok.entries_length ▸ hj)).1
  swap_entries hok hi hij hj := (hok.swapU hi hij (hok.entries_length ▸ hj)).2
  erase_ok hok hlen := by
    rw [hok.entries_length] at hlen ⊢
    exact (hok.eraseU hlen).1
  erase_entries hok hlen := by
    rw [hok.entries_length] at hlen ⊢
    exact (hok.eraseU hlen).2

variable [DecidableEq P] {o : WeakOrder V} {u' : Unique V P}

namespace Ok

omit [DecidableEq P] in
theorem value_congr (hok : u.Ok) (hok' : u'.Ok) (hperm : u'.entries.Perm u.entries) :
    u'.valueByPayload = u.valueByPayload := by
  funext p
  apply Option.ext
  intro v
  rw [hok'.value_iff, hok.value_iff, hperm.mem_iff]

theorem append (hok : u.Ok) (hp : u.reverse p = none) (v : V) :
    Ok ⟨u.values ++ [v], u.payloads ++ [p],
      Function.update u.reverse p (some (u.values.length + 1))⟩ := by
  constructor
  · simp only [List.length_append, hok.length_eq, List.length_singleton]
  · intro q pos
    simp only [item_append, Function.update_apply, hok.length_eq]
    have hinv := hok.inverse q pos
    have hlen (hq : item u.payloads pos = some q) : pos ≤ u.payloads.length := item_le hq
    grind

theorem append_value (hok : u.Ok) (p : P) (v : V) :
    valueByPayload ⟨u.values ++ [v], u.payloads ++ [p],
      Function.update u.reverse p (some (u.values.length + 1))⟩ =
      Function.update u.valueByPayload p (some v) := by
  funext q
  simp only [valueByPayload, item_append]
  by_cases hq : q = p
  · subst hq
    rw [Function.update_self, Function.update_self, Option.bind_some, Function.update_self]
  · rw [Function.update_of_ne hq, Function.update_of_ne hq, valueByPayload]
    cases hr : u.reverse q with
    | none => rfl
    | some pos =>
      have hle := item_le ((hok.inverse q pos).mp hr)
      rw [← hok.length_eq] at hle
      rw [Option.bind_some, Option.bind_some, Function.update_of_ne (by omega)]

theorem set_value (hok : u.Ok) (hr : u.reverse p = some pos) (v : V) :
    valueByPayload { u with values := u.values.set (pos - 1) v } =
      Function.update u.valueByPayload p (some v) := by
  have hp := (hok.inverse p pos).mp hr
  have hle := item_le hp
  rw [← hok.length_eq] at hle
  funext q
  simp only [valueByPayload, item_set (item_pos hp) hle]
  by_cases hq : q = p
  · subst hq
    rw [Function.update_self, hr, Option.bind_some, Function.update_self]
  · rw [Function.update_of_ne hq, valueByPayload]
    cases hrq : u.reverse q with
    | none => rfl
    | some k =>
      have hk := (hok.inverse q k).mp hrq
      rw [Option.bind_some, Option.bind_some, Function.update_of_ne]
      rintro rfl
      rw [hp] at hk
      cases hk
      exact hq rfl

theorem erase_value (hok : u.Ok) (hok' : u'.Ok) (hperm : ((v, p) :: u'.entries).Perm u.entries) :
    u'.valueByPayload = Function.update u.valueByPayload p none := by
  have hnodup := hok.nodup
  rw [← hok.entries_snd, ← (hperm.map Prod.snd).nodup_iff, List.map_cons, List.nodup_cons] at hnodup
  funext q
  apply Option.ext
  intro x
  rw [hok'.value_iff, Function.update_apply]
  split
  · next hq =>
    subst hq
    refine iff_of_false (fun hx => hnodup.1 ?_) (by simp)
    exact List.mem_map.mpr ⟨_, hx, rfl⟩
  · next hq =>
    rw [hok.value_iff, ← hperm.mem_iff, List.mem_cons, Prod.mk.injEq]
    exact ⟨.inr, fun hx => hx.resolve_left fun he => hq he.2⟩

end Ok

/-- An ordered heap that keeps the values of its payloads. -/
structure Keeps (o : WeakOrder V) (u : Unique V P) (m : P → Option V) : Prop where
  ok : u.Ok
  ordered : Ordered o.top (item u.values)
  value : u.valueByPayload = m

namespace Keeps

variable {m : P → Option V}

theorem insertU (h : Keeps o u m) (hp : m p = none) (v : V) :
    ∃ u', u.insertU o.lt v p = .ok u' ∧ Keeps o u' (Function.update m p (some v)) := by
  obtain ⟨hok, ho, rfl⟩ := h
  have hr := (hok.reverse_none p).mpr hp
  have hok₁ := hok.append hr v
  have hput : put u.values (u.values.length + 1) v = u.values ++ [v] := if_pos rfl
  have hputp : put u.payloads (u.values.length + 1) p = u.payloads ++ [p] := by
    rw [hok.length_eq]
    exact if_pos rfl
  obtain ⟨u₁, hu₁⟩ : ∃ u₁ : Unique V P, u₁ = { u.setReverse p (some (u.values.length + 1)) with
      payloads := put u.payloads (u.values.length + 1) p } := ⟨_, rfl⟩
  have hvals : u₁.values = u.values := by rw [hu₁, setReverse]
  have hset : (base o.lt).setValue u₁ (u₁.values.length + 1) v =
      ⟨u.values ++ [v], u.payloads ++ [p],
        Function.update u.reverse p (some (u.values.length + 1))⟩ := by
    simp only [base, hu₁, setReverse, hput, hputp]
  rw [← hset] at hok₁
  rw [← hvals] at ho hput
  obtain ⟨u', hi, hm, ho'⟩ := View.insert_ordered (w := view o.lt) rfl ho hok₁ hput
  rw [hu₁] at hi
  refine ⟨u', (if_pos hr).trans hi, hm.ok, ho', ?_⟩
  rw [hok₁.value_congr hm.ok hm.perm]
  exact (congrArg valueByPayload hset).trans (hok.append_value p v)

theorem insertU_duplicate (h : Keeps o u m) (hp : m p = some x) (v : V) :
    u.insertU o.lt v p = .error "duplicate payload" := by
  obtain ⟨hok, ho, rfl⟩ := h
  refine if_neg ?_
  rw [hok.reverse_none, hp]
  exact Option.some_ne_none x

theorem updateU (h : Keeps o u m) (hp : m p = some x) (v : V) :
    ∃ u', u.updateU o.lt p v = .ok u' ∧ Keeps o u' (Function.update m p (some v)) := by
  obtain ⟨hok, ho, rfl⟩ := h
  obtain ⟨pos, hr, hx⟩ := Option.bind_eq_some_iff.mp hp
  have hput : put u.values pos v = u.values.set (pos - 1) v := put_inside (item_le hx) v
  have hset : (base o.lt).setValue u pos v = { u with values := u.values.set (pos - 1) v } := by
    simp only [base, hput]
  have hok₁ := hok.set (pos - 1) v
  rw [← hset] at hok₁
  obtain ⟨u', hu, hm, ho'⟩ :=
    View.update_ordered (w := view o.lt) rfl ho (item_pos hx) (item_le hx) hok₁ hput
  refine ⟨u', ?_, hm.ok, ho', ?_⟩
  · rw [Unique.updateU, hr]
    exact hu
  · rw [hok₁.value_congr hm.ok hm.perm]
    exact (congrArg valueByPayload hset).trans (hok.set_value hr v)

theorem updateU_missing (h : Keeps o u m) (hp : m p = none) (v : V) :
    u.updateU o.lt p v = .error "attempt to compare number with nil" := by
  obtain ⟨hok, ho, rfl⟩ := h
  rw [Unique.updateU, (hok.reverse_none p).mpr hp]
  rfl

theorem remove (h : Keeps o u m) (hp : item u.payloads pos = some p) :
    ∃ x u', m p = some x ∧ item u.values pos = some x ∧
      (base o.lt).remove u pos = .ok (some x, u') ∧ Keeps o u' (Function.update m p none) := by
  obtain ⟨hok, ho, rfl⟩ := h
  have hlen := item_le hp
  rw [← hok.length_eq] at hlen
  obtain ⟨u', hr, hok', hperm, ho'⟩ :=
    View.remove_ordered (w := view o.lt) rfl hok ho (item_pos hp) hlen
  rw [hok.item_snd] at hp
  obtain ⟨⟨x, q⟩, he, rfl⟩ := Option.map_eq_some_iff.mp hp
  have hget : u.entries[pos - 1]? = some (x, q) := by rw [← item_eq (item_pos he), he]
  obtain ⟨hlt, hget⟩ := List.getElem?_eq_some_iff.mp hget
  have hkeep : ((x, q) :: u'.entries).Perm u.entries := by
    rw [← hget]
    exact (hperm.cons _).trans (List.getElem_cons_eraseIdx_perm hlt)
  have hv : item u.values pos = some x := by
    rw [hok.item_fst, he]
    rfl
  refine ⟨x, u', hok.value_iff.mpr (item_mem he), hv, ?_, hok', ho', hok.erase_value hok' hkeep⟩
  rw [hr]
  exact congrArg (fun v => Except.ok (v, u')) hv

theorem removeU (h : Keeps o u m) (hp : m p = some x) :
    ∃ u', u.removeU o.lt p = .ok (some (some x, p), u') ∧
      Keeps o u' (Function.update m p none) := by
  have hval := h.value
  subst hval
  obtain ⟨pos, hr, -⟩ := Option.bind_eq_some_iff.mp hp
  obtain ⟨y, u', hy, -, hrem, hk⟩ := h.remove ((h.ok.inverse p pos).mp hr)
  rw [hp] at hy
  cases hy
  refine ⟨u', ?_, hk⟩
  simp only [Unique.removeU, hr, hrem, bind, Except.bind, pure, Except.pure]

theorem removeU_absent (h : Keeps o u m) (hp : m p = none) : u.removeU o.lt p = .ok (none, u) := by
  obtain ⟨hok, ho, rfl⟩ := h
  rw [Unique.removeU, (hok.reverse_none p).mpr hp]
  rfl

omit [DecidableEq P] in
/-- The heap is empty, or what `peekU` returns is a payload of a least value. -/
theorem peekU (h : Keeps o u m) :
    (u.peekU = (none, none) ∧ ∀ p, m p = none) ∨
      ∃ p v, u.peekU = (some p, some v) ∧ m p = some v ∧
        ∀ q x, m q = some x → o.lt x v = false := by
  obtain ⟨hok, ho, rfl⟩ := h
  have hvals := hok.entries_fst
  have hpls := hok.entries_snd
  cases he : u.entries with
  | nil =>
    rw [he] at hvals hpls
    refine .inl ⟨by rw [Unique.peekU, ← hvals, ← hpls]; rfl, fun p => ?_⟩
    cases hm : u.valueByPayload p with
    | none => rfl
    | some v =>
      rw [hok.value_iff, he] at hm
      cases hm
  | cons e es =>
    rw [he] at hvals hpls
    have htop : item u.values 1 = some e.1 := by rw [← hvals]; rfl
    refine .inr ⟨e.2, e.1, by rw [Unique.peekU, htop, ← hpls]; rfl, ?_, fun q x hq => ?_⟩
    · rw [hok.value_iff, he]
      exact List.mem_cons_self
    · obtain ⟨pos, -, hx⟩ := Option.bind_eq_some_iff.mp hq
      have hroot := ho.root pos (item_pos hx)
      rw [hx, htop] at hroot
      exact hroot

theorem popU (h : Keeps o u m) (hp : u.peekU = (some p, some v)) (ht : truth v = true) :
    ∃ u', u.popU o.lt truth = .ok (some (some p, some v), u') ∧
      Keeps o u' (Function.update m p none) := by
  have hv : item u.values 1 = some v := congrArg Prod.snd hp
  have hpl : item u.payloads 1 = some p := congrArg Prod.fst hp
  obtain ⟨x, u', -, hx, hrem, hk⟩ := h.remove hpl
  rw [hv] at hx
  cases hx
  refine ⟨u', ?_, hk⟩
  simp only [Unique.popU, hv, hpl, hrem, Option.any_some, ht, if_true, bind, Except.bind, pure,
    Except.pure]

end Keeps

theorem popU_untrue (lt : V → V → Bool) (hp : u.peekU.2.any truth = false) :
    u.popU lt truth = .ok (none, u) := by
  have hv : (item u.values 1).any truth = false := hp
  simp only [popU, hv, Bool.false_eq_true, if_false]
  rfl

end Unique

end BinaryHeap

end Skyext
