import Mathlib.Data.List.Perm.Basic
import Skyext.BinaryHeap.Heap
import Skyext.Lib.HeapOrder

namespace Skyext
set_option autoImplicit true

namespace BinaryHeap
open HeapOrder

section Lists

variable {α β : Type} {xs : List α} {i j pos : Nat}

theorem item_pos (h : item xs pos = some x) : 1 ≤ pos := by
  cases pos with
  | zero => cases h
  | succ pos => omega

theorem item_eq (hpos : 1 ≤ pos) : item xs pos = xs[pos - 1]? := if_neg (by omega)

theorem item_none (h : xs.length < pos) : item xs pos = none := by
  rw [item_eq (by omega)]
  exact List.getElem?_eq_none (by omega)

theorem item_nil (pos : Nat) : item ([] : List α) pos = none := by
  cases pos with
  | zero => rfl
  | succ pos => rfl

theorem item_get (hpos : 1 ≤ pos) (hlen : pos ≤ xs.length) :
    item xs pos = some xs[pos - 1] := by
  rw [item_eq hpos]
  exact List.getElem?_eq_getElem (by omega)

theorem item_mem (h : item xs pos = some x) : x ∈ xs := by
  rw [item_eq (item_pos h)] at h
  exact List.mem_of_getElem? h

theorem item_le (h : item xs pos = some x) : pos ≤ xs.length := by
  by_cases hlen : pos ≤ xs.length
  · exact hlen
  · rw [item_none (by omega)] at h
    cases h

theorem exists_item (h : x ∈ xs) : ∃ pos, item xs pos = some x := by
  obtain ⟨i, hi⟩ := List.mem_iff_getElem?.mp h
  exact ⟨i + 1, hi⟩

theorem item_map (f : α → β) : item (xs.map f) pos = (item xs pos).map f := by
  cases pos with
  | zero => rfl
  | succ pos => simp [item]

theorem item_set (hpos : 1 ≤ pos) (hlen : pos ≤ xs.length) (x : α) :
    item (xs.set (pos - 1) x) = Function.update (item xs) pos (some x) := by
  funext k
  by_cases hk : k = pos
  · subst hk
    rw [Function.update_self, item_get hpos (by simpa using hlen), List.getElem_set_self]
  · rw [Function.update_of_ne hk]
    cases k with
    | zero => rfl
    | succ k =>
      simp only [item, Nat.add_one_sub_one, Nat.add_one_ne_zero, if_false]
      exact List.getElem?_set_ne (by omega)

theorem item_append (x : α) :
    item (xs ++ [x]) = Function.update (item xs) (xs.length + 1) (some x) := by
  funext k
  by_cases hk : k = xs.length + 1
  · subst hk
    simp [item]
  · rw [Function.update_of_ne hk]
    cases k with
    | zero => rfl
    | succ k =>
      simp only [item, Nat.add_one_sub_one, Nat.add_one_ne_zero, if_false]
      by_cases hlt : k < xs.length
      · exact List.getElem?_append_left hlt
      · rw [List.getElem?_eq_none (by simp; omega), List.getElem?_eq_none (by omega)]

theorem item_dropLast : item xs.dropLast = Function.update (item xs) xs.length none := by
  funext k
  by_cases hk : k = xs.length
  · subst hk
    rw [Function.update_self]
    cases h : xs.length with
    | zero => rfl
    | succ n => exact item_none (by simp [h])
  · rw [Function.update_of_ne hk]
    cases k with
    | zero => rfl
    | succ k =>
      simp only [item, Nat.add_one_sub_one, Nat.add_one_ne_zero, if_false]
      rw [List.getElem?_dropLast]
      split
      · rfl
      · exact (List.getElem?_eq_none (by omega)).symm

theorem put_inside (hpos : pos ≤ xs.length) (x : α) : put xs pos x = xs.set (pos - 1) x :=
  if_neg (by omega)

theorem exchange_eq (hi : 1 ≤ i) (hil : i ≤ xs.length) (hj : 1 ≤ j) (hjl : j ≤ xs.length) :
    exchange xs i j =
      (xs.set (i - 1) xs[j - 1]).set (j - 1) xs[i - 1] := by
  simp only [exchange, item_get hi hil, item_get hj hjl]
  rw [put_inside hil, put_inside (by simpa using hjl)]

theorem item_exchange (hi : 1 ≤ i) (hil : i ≤ xs.length) (hj : 1 ≤ j) (hjl : j ≤ xs.length)
    (hne : i ≠ j) : item (exchange xs i j) = swap (item xs) i j := by
  rw [exchange_eq hi hil hj hjl, item_set hj (by simpa using hjl), item_set hi hil]
  funext k
  simp only [swap, Function.update_apply, item_get hi hil, item_get hj hjl]
  split
  · next hk => rw [if_neg (by omega)]
  · rfl

theorem exchange_perm (hi : 1 ≤ i) (hil : i ≤ xs.length) (hj : 1 ≤ j) (hjl : j ≤ xs.length) :
    (exchange xs i j).Perm xs := by
  rw [exchange_eq hi hil hj hjl]
  exact List.set_set_perm (by omega) (by omega)

theorem put_map (f : α → β) (x : α) : put (xs.map f) pos (f x) = (put xs pos x).map f := by
  unfold put
  rw [List.length_map]
  split
  · rw [List.map_append]
    rfl
  · rw [List.map_set]

theorem exchange_map (f : α → β) : exchange (xs.map f) i j = (exchange xs i j).map f := by
  simp only [exchange, item_map]
  cases item xs i with
  | none => rfl
  | some x =>
    cases item xs j with
    | none => rfl
    | some y =>
      simp only [Option.map, put_map]

theorem dropLast_exchange (hi : 1 ≤ i) (hil : i < xs.length) :
    item (exchange xs i xs.length).dropLast =
      Function.update (item xs.dropLast) i (item xs xs.length) := by
  have hle := Nat.le_refl xs.length
  have hlen := (exchange_perm hi (Nat.le_of_lt hil) (by omega) hle).length_eq
  rw [item_dropLast, hlen, item_exchange hi (Nat.le_of_lt hil) (by omega) hle (by omega),
    item_dropLast, Function.update_comm (by omega)]
  funext k
  simp only [Function.update_apply, swap]
  split
  · rfl
  · split <;> rfl

theorem dropLast_exchange_perm (hi : 1 ≤ i) (hil : i < xs.length) :
    (exchange xs i xs.length).dropLast.Perm (xs.eraseIdx (i - 1)) := by
  have hlen : 1 ≤ xs.length := by omega
  have hperm := exchange_perm hi (Nat.le_of_lt hil) hlen (Nat.le_refl _)
  have hne : exchange xs i xs.length ≠ [] := by
    intro he
    have hnil := hperm.length_eq
    rw [he, List.length_nil] at hnil
    omega
  have hlast : (exchange xs i xs.length).getLast hne = xs[i - 1] := by
    simp only [exchange_eq hi (Nat.le_of_lt hil) hlen (Nat.le_refl _), List.getLast_eq_getElem,
      List.length_set, List.getElem_set_self]
  rw [← List.perm_cons xs[i - 1]]
  refine .trans ?_ (hperm.trans (List.getElem_cons_eraseIdx_perm (by omega)).symm)
  rw [← hlast]
  conv_rhs => rw [← List.dropLast_append_getLast hne]
  exact List.perm_append_singleton _ _ |>.symm

theorem ordered_dropLast {o : WeakOrder α} (h : Ordered o.top (item xs)) :
    Ordered o.top (item xs.dropLast) := by
  intro i hi
  rw [item_dropLast]
  by_cases hil : i = xs.length
  · rw [hil, Function.update_self, WeakOrder.top_none]
  · rw [Function.update_of_ne hil]
    by_cases hc : i / 2 = xs.length
    · rw [item_none (by omega), WeakOrder.top_none]
    · rw [Function.update_of_ne hc]
      exact h i hi

theorem ordered_nil (o : WeakOrder α) : Ordered o.top (item ([] : List α)) := by
  intro i _
  rw [item_nil, WeakOrder.top_none]

end Lists

variable {H V E : Type} {b : Base H V} {o : WeakOrder V}

/-- How the objects of a heap hold entries, which the functions of `binaryHeap` move about. -/
structure View (b : Base H V) (E : Type) where
  Ok : H → Prop
  entries : H → List E
  key : E → V
  values_eq : Ok h → b.values h = (entries h).map key
  swap_ok : Ok h → 1 ≤ i → i < j → j ≤ (entries h).length → Ok (b.swap h i j)
  swap_entries : Ok h → 1 ≤ i → i < j → j ≤ (entries h).length →
    entries (b.swap h i j) = exchange (entries h) i j
  erase_ok : Ok h → 1 ≤ (entries h).length → Ok (b.erase h (entries h).length)
  erase_entries : Ok h → 1 ≤ (entries h).length →
    entries (b.erase h (entries h).length) = (entries h).dropLast

/-- The same entries at other places. -/
structure View.Moved (w : View b E) (h h' : H) : Prop where
  ok : w.Ok h'
  perm : (w.entries h').Perm (w.entries h)

namespace View

variable {w : View b E} {h h' : H}

theorem length_values (w : View b E) (hok : w.Ok h) :
    (b.values h).length = (w.entries h).length := by
  rw [w.values_eq hok, List.length_map]

theorem Moved.trans (h₁ : w.Moved h h') (h₂ : w.Moved h' h'') : w.Moved h h'' :=
  ⟨h₂.ok, h₂.perm.trans h₁.perm⟩

theorem moved_swap (hok : w.Ok h) (hi : 1 ≤ i) (hij : i < j) (hj : j ≤ (w.entries h).length) :
    w.Moved h (b.swap h i j) := by
  refine ⟨w.swap_ok hok hi hij hj, ?_⟩
  rw [w.swap_entries hok hi hij hj]
  exact exchange_perm hi (by omega) (by omega) hj

theorem values_swap (hok : w.Ok h) (hi : 1 ≤ i) (hij : i < j) (hj : j ≤ (w.entries h).length) :
    b.values (b.swap h i j) = exchange (b.values h) i j := by
  rw [w.values_eq (w.swap_ok hok hi hij hj), w.swap_entries hok hi hij hj, ← exchange_map,
    ← w.values_eq hok]

theorem item_swap (hok : w.Ok h) (hi : 1 ≤ i) (hij : i < j) (hj : j ≤ (w.entries h).length) :
    item (b.values (b.swap h i j)) = swap (item (b.values h)) i j := by
  have hlen := w.length_values hok
  rw [values_swap hok hi hij hj]
  exact item_exchange hi (by omega) (by omega) (by omega) (by omega)

theorem less_eq (hlt : b.lt = o.lt) (hi : 1 ≤ i) (hil : i ≤ (b.values h).length) (hj : 1 ≤ j)
    (hjl : j ≤ (b.values h).length) :
    b.less h i j = .ok (o.top.lt (item (b.values h) i) (item (b.values h) j)) := by
  simp only [Base.less, item_get hi hil, item_get hj hjl, hlt, WeakOrder.top_some]

/-- From a place whose edges to its children are in order, `bubbleUp` puts all in order. -/
theorem bubbleUp_rising (hlt : b.lt = o.lt) (hok : w.Ok h) (hpos : 1 ≤ pos)
    (hlen : pos ≤ (w.entries h).length) (hr : Rising o.top (item (b.values h)) pos) :
    ∃ h', b.bubbleUp h pos = .ok h' ∧ w.Moved h h' ∧ Ordered o.top (item (b.values h')) := by
  induction pos using Nat.strongRecOn generalizing h with
  | _ pos ih =>
    have hv := w.length_values hok
    rw [Base.bubbleUp]
    by_cases h1 : 1 < pos
    · rw [if_pos h1, less_eq hlt hpos (by omega) (by omega) (by omega)]
      cases hl : o.top.lt (item (b.values h) pos) (item (b.values h) (pos / 2)) with
      | false => exact ⟨h, rfl, ⟨hok, .refl _⟩, hr.ordered fun _ => hl⟩
      | true =>
        have hm := moved_swap hok (show 1 ≤ pos / 2 by omega) (by omega) hlen
        have hr' := hr.toTouched.rise h1 hl
        rw [← item_swap hok (by omega) (by omega) hlen] at hr'
        obtain ⟨h', hb, hm', ho⟩ := ih (pos / 2) (by omega) hm.ok (by omega)
          (by rw [hm.perm.length_eq]; omega) hr'
        exact ⟨h', hb, hm.trans hm', ho⟩
    · rw [if_neg h1]
      exact ⟨h, rfl, ⟨hok, .refl _⟩, hr.ordered fun h2 => absurd h2 h1⟩

/-- From a place that has a new value, `bubbleUp` leaves at most its edges to the children. -/
theorem bubbleUp_touched (hlt : b.lt = o.lt) (hok : w.Ok h) (hpos : 1 ≤ pos)
    (hlen : pos ≤ (w.entries h).length) (ht : Touched o.top (item (b.values h)) pos) :
    ∃ h', b.bubbleUp h pos = .ok h' ∧ w.Moved h h' ∧ Sinking o.top (item (b.values h')) pos := by
  have hv := w.length_values hok
  rw [Base.bubbleUp]
  by_cases h1 : 1 < pos
  · rw [if_pos h1, less_eq hlt hpos (by omega) (by omega) (by omega)]
    cases hl : o.top.lt (item (b.values h) pos) (item (b.values h) (pos / 2)) with
    | false => exact ⟨h, rfl, ⟨hok, .refl _⟩, ht.sinking fun _ => hl⟩
    | true =>
      have hm := moved_swap hok (show 1 ≤ pos / 2 by omega) (by omega) hlen
      have hr := ht.rise h1 hl
      rw [← item_swap hok (by omega) (by omega) hlen] at hr
      obtain ⟨h', hb, hm', ho⟩ := bubbleUp_rising hlt hm.ok (by omega)
        (by rw [hm.perm.length_eq]; omega) hr
      exact ⟨h', hb, hm.trans hm', ho.sinking pos⟩
  · rw [if_neg h1]
    exact ⟨h, rfl, ⟨hok, .refl _⟩, ht.sinking fun h2 => absurd h2 h1⟩

theorem smaller_least (hlt : b.lt = o.lt) {min : Nat} (hc : 1 ≤ c) (hmin : 1 ≤ min)
    (hminl : min ≤ (b.values h).length) :
    ∃ m, b.smaller h (b.values h).length min c = .ok m ∧ 1 ≤ m ∧ m ≤ (b.values h).length ∧
      o.top.lt (item (b.values h) c) (item (b.values h) m) = false ∧
      o.top.lt (item (b.values h) min) (item (b.values h) m) = false ∧
      (m = min ∨ m = c ∧ o.top.lt (item (b.values h) c) (item (b.values h) min) = true) := by
  unfold Base.smaller
  by_cases hcl : c ≤ (b.values h).length
  · rw [if_pos hcl, less_eq hlt hc hcl hmin hminl]
    cases hl : o.top.lt (item (b.values h) c) (item (b.values h) min) with
    | false => exact ⟨min, rfl, hmin, hminl, hl, o.top.irrefl _, .inl rfl⟩
    | true => exact ⟨c, rfl, hc, hcl, o.top.irrefl _, o.top.asymm hl, .inr ⟨rfl, rfl⟩⟩
  · rw [if_neg hcl, item_none (by omega)]
    exact ⟨min, rfl, hmin, hminl, WeakOrder.top_none _ _, o.top.irrefl _, .inl rfl⟩

/-- The loop over the children finds the place itself, or its least child. -/
theorem smallest_least (hlt : b.lt = o.lt) (hpos : 1 ≤ pos) (hlen : pos ≤ (b.values h).length) :
    ∃ m, b.smallest h (b.values h).length pos = .ok m ∧
      (∀ i, i / 2 = pos → o.top.lt (item (b.values h) i) (item (b.values h) m) = false) ∧
      (m = pos ∨ m / 2 = pos ∧ m ≤ (b.values h).length ∧
        o.top.lt (item (b.values h) m) (item (b.values h) pos) = true) := by
  obtain ⟨k, hk, hk1, hkl, hck, hpk, hkc⟩ :=
    smaller_least hlt (h := h) (show 1 ≤ 2 * pos by omega) hpos hlen
  obtain ⟨m, hm, -, hml, hcm, hkm, hmc⟩ :=
    smaller_least hlt (h := h) (show 1 ≤ 2 * pos + 1 by omega) hk1 hkl
  refine ⟨m, by simp only [Base.smallest, hk, hm], ?_, ?_⟩
  · intro i hi
    obtain rfl | rfl : i = 2 * pos ∨ i = 2 * pos + 1 := by omega
    · exact o.top.negTrans hck hkm
    · exact hcm
  · obtain rfl | ⟨rfl, hl⟩ := hmc
    · obtain rfl | ⟨rfl, hl⟩ := hkc
      · exact .inl rfl
      · exact .inr ⟨by omega, hml, hl⟩
    · obtain rfl | ⟨rfl, -⟩ := hkc
      · exact .inr ⟨by omega, hml, hl⟩
      · refine .inr ⟨by omega, hml, ?_⟩
        cases hp : o.top.lt (item (b.values h) (2 * pos + 1)) (item (b.values h) pos) with
        | true => rfl
        | false => exact absurd (o.top.negTrans hp hpk) (by simp [hl])

/-- From a place whose edge to its parent is in order, `sinkDown` puts all in order. -/
theorem sink_sinking (hlt : b.lt = o.lt) (hok : w.Ok h) (hpos : 1 ≤ pos)
    (hlen : pos ≤ (w.entries h).length) (hs : Sinking o.top (item (b.values h)) pos) :
    ∃ h', b.sink (w.entries h).length h pos = .ok h' ∧ w.Moved h h' ∧
      Ordered o.top (item (b.values h')) := by
  induction hn : (w.entries h).length - pos using Nat.strongRecOn generalizing h pos with
  | _ n ih =>
    have hv := w.length_values hok
    obtain ⟨m, hm, hmin, hcases⟩ := smallest_least hlt hpos (h := h) (by omega)
    rw [hv] at hm hcases
    rw [Base.sink]
    split
    · next e he => simp only [hm, reduceCtorEq] at he
    · next min he =>
      obtain rfl : m = min := by simpa only [hm, Except.ok.injEq] using he
      by_cases hmp : m = pos
      · subst hmp
        rw [if_pos rfl]
        exact ⟨h, rfl, ⟨hok, .refl _⟩, hs.ordered fun i _ hi => hmin i hi⟩
      · obtain ⟨hmc, hml, hl⟩ := hcases.resolve_left hmp
        rw [if_neg hmp]
        have hmv := moved_swap hok hpos (show pos < m by omega) hml
        have hs' := hs.sink hpos hmc hmin hl
        rw [← item_swap hok hpos (by omega) hml] at hs'
        have hlen' := hmv.perm.length_eq
        obtain ⟨h', hb, hm', ho⟩ := ih ((w.entries h).length - m) (by omega) hmv.ok (by omega)
          (by omega) hs' (by rw [hlen'])
        rw [hlen'] at hb
        exact ⟨h', hb, hmv.trans hm', ho⟩

theorem sinkDown_sinking (hlt : b.lt = o.lt) (hok : w.Ok h) (hpos : 1 ≤ pos)
    (hlen : pos ≤ (w.entries h).length) (hs : Sinking o.top (item (b.values h)) pos) :
    ∃ h', b.sinkDown h pos = .ok h' ∧ w.Moved h h' ∧ Ordered o.top (item (b.values h')) := by
  rw [Base.sinkDown, w.length_values hok]
  exact sink_sinking hlt hok hpos hlen hs

theorem sinking_last (hlen : (b.values h).length ≤ pos)
    (hs : Sinking o.top (item (b.values h)) pos) : Ordered o.top (item (b.values h)) := by
  apply hs.ordered
  intro i hi hc
  rw [item_none (by omega), WeakOrder.top_none]

theorem settle (hlt : b.lt = o.lt) (hok : w.Ok h) (hpos : 1 ≤ pos)
    (hlen : pos ≤ (w.entries h).length) (ht : Touched o.top (item (b.values h)) pos) :
    ∃ h₁ h₂, b.bubbleUp h pos = .ok h₁ ∧ b.sinkDown h₁ pos = .ok h₂ ∧ w.Moved h h₁ ∧
      w.Moved h h₂ ∧ Sinking o.top (item (b.values h₁)) pos ∧
      Ordered o.top (item (b.values h₂)) := by
  obtain ⟨h₁, hb, hm, hs⟩ := bubbleUp_touched hlt hok hpos hlen ht
  obtain ⟨h₂, hd, hm', ho⟩ := sinkDown_sinking hlt hm.ok hpos (by rw [hm.perm.length_eq]; omega) hs
  exact ⟨h₁, h₂, hb, hd, hm, hm.trans hm', hs, ho⟩

theorem update_ordered (hlt : b.lt = o.lt) (ho : Ordered o.top (item (b.values h)))
    (hpos : 1 ≤ pos) (hlen : pos ≤ (b.values h).length) (hok : w.Ok (b.setValue h pos v))
    (hvals : b.values (b.setValue h pos v) = (b.values h).set (pos - 1) v) :
    ∃ h', b.update h pos v = .ok h' ∧ w.Moved (b.setValue h pos v) h' ∧
      Ordered o.top (item (b.values h')) := by
  have ht : Touched o.top (Function.update (item (b.values h)) pos (some v)) pos := ho.touched _
  rw [← item_set hpos hlen, ← hvals] at ht
  have hsize := w.length_values hok
  rw [hvals, List.length_set] at hsize
  obtain ⟨h₁, h₂, hb, hd, hm₁, hm₂, hs, ho'⟩ := settle hlt hok hpos (by omega) ht
  have hup : b.update h pos v =
      if pos < (b.values h₁).length then b.sinkDown h₁ pos else .ok h₁ := by
    by_cases h1 : 1 < pos
    · simp only [Base.update, hpos, hlen, h1, and_self, if_true, hb, bind, Except.bind, pure,
        Except.pure]
    · rw [Base.bubbleUp, if_neg h1] at hb
      cases hb
      simp only [Base.update, hpos, hlen, h1, and_self, if_true, if_false, bind, Except.bind, pure,
        Except.pure]
  rw [hup]
  by_cases hlast : pos < (b.values h₁).length
  · rw [if_pos hlast]
    exact ⟨h₂, hd, hm₂, ho'⟩
  · rw [if_neg hlast]
    exact ⟨h₁, rfl, hm₁, sinking_last (by omega) hs⟩

theorem insert_ordered (hlt : b.lt = o.lt) (ho : Ordered o.top (item (b.values h)))
    (hok : w.Ok (b.setValue h ((b.values h).length + 1) v))
    (hvals : b.values (b.setValue h ((b.values h).length + 1) v) = b.values h ++ [v]) :
    ∃ h', b.insert h v = .ok h' ∧ w.Moved (b.setValue h ((b.values h).length + 1) v) h' ∧
      Ordered o.top (item (b.values h')) := by
  have hsize := w.length_values hok
  rw [hvals, List.length_append, List.length_singleton] at hsize
  have ht : Touched o.top (Function.update (item (b.values h)) ((b.values h).length + 1) (some v))
      ((b.values h).length + 1) := ho.touched _
  rw [← item_append, ← hvals] at ht
  apply bubbleUp_rising hlt hok (by omega) (by omega)
  refine ⟨ht, ?_⟩
  intro i hi hc
  rw [item_none (by rw [hvals, List.length_append, List.length_singleton]; omega),
    WeakOrder.top_none]

theorem remove_outside (h : H) (hpos : pos < 1 ∨ (b.values h).length < pos) :
    b.remove h pos = .ok (none, h) := by
  unfold Base.remove
  by_cases h1 : pos < 1
  · rw [if_pos h1]
    rfl
  · rw [if_neg h1, if_neg (by omega), if_neg (by omega)]
    rfl

theorem values_erase (hok : w.Ok h) (hlen : 1 ≤ (w.entries h).length) :
    b.values (b.erase h (w.entries h).length) = (b.values h).dropLast := by
  rw [w.values_eq (w.erase_ok hok hlen), w.erase_entries hok hlen, List.map_dropLast,
    ← w.values_eq hok]

/-- The last entry takes the place of the one that is removed. -/
theorem remove_ordered (hlt : b.lt = o.lt) (hok : w.Ok h) (ho : Ordered o.top (item (b.values h)))
    (hpos : 1 ≤ pos) (hlen : pos ≤ (b.values h).length) :
    ∃ h', b.remove h pos = .ok (item (b.values h) pos, h') ∧ w.Ok h' ∧
      (w.entries h').Perm ((w.entries h).eraseIdx (pos - 1)) ∧
      Ordered o.top (item (b.values h')) := by
  have hsize := w.length_values hok
  simp only [Base.remove, hsize]
  rw [hsize] at hlen
  rw [if_neg (by omega)]
  by_cases hlast : pos < (w.entries h).length
  · rw [if_pos hlast]
    have hok₁ := w.swap_ok hok hpos hlast (Nat.le_refl _)
    have hent₁ := w.swap_entries hok hpos hlast (Nat.le_refl _)
    have hlen₁ := (moved_swap hok hpos hlast (Nat.le_refl _)).perm.length_eq
    have hok₂ := w.erase_ok hok₁ (by omega)
    have hent₂ := w.erase_entries hok₁ (by omega)
    have hvals₂ := values_erase hok₁ (by omega)
    rw [values_swap hok hpos hlast (Nat.le_refl _)] at hvals₂
    rw [hlen₁] at hok₂ hent₂ hvals₂
    have ht : Touched o.top (item (b.values (b.erase (b.swap h pos (w.entries h).length)
        (w.entries h).length))) pos := by
      rw [hvals₂, ← hsize, dropLast_exchange hpos (by omega)]
      exact (ordered_dropLast ho).touched _
    obtain ⟨h₁, h₂, hb, hd, -, hm, -, ho'⟩ := settle hlt hok₂ hpos
      (by rw [hent₂, List.length_dropLast, hlen₁]; omega) ht
    refine ⟨h₂, ?_, hm.ok, hm.perm.trans ?_, ho'⟩
    · simp only [hb, hd, bind, Except.bind, pure, Except.pure]
    · rw [hent₂, hent₁]
      exact dropLast_exchange_perm hpos hlast
  · rw [if_neg hlast, if_pos (by omega)]
    obtain rfl : pos = (w.entries h).length := by omega
    refine ⟨_, rfl, w.erase_ok hok hpos, ?_, ?_⟩
    · rw [w.erase_entries hok hpos, List.eraseIdx_length_sub_one]
    · rw [values_erase hok hpos]
      exact ordered_dropLast ho

end View

end BinaryHeap

end Skyext
