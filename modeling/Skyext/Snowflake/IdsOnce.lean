import Mathlib.Data.List.Perm.Lattice
import Mathlib.Data.List.Nodup
import Skyext.Snowflake.IdGenerator

namespace Skyext
set_option autoImplicit true

namespace IdGenerator
open Machine

namespace State

/-- How often an id stands in the cache, in a suspended call, in a return or among the dropped. -/
def tally (s : State) (id : Id) : Nat :=
  s.idCache.count id + (s.waiting.flatMap Call.result).count id +
    (s.returned.flatMap Return.ids).count id + s.dropped.count id

@[simp] theorem tally_refillCache (s : State) (id : Id) : s.refillCache.tally id = s.tally id := by
  rw [refillCache]
  split <;> rfl

@[simp] theorem refillCache_fetched (s : State) : s.refillCache.fetched = s.fetched := by
  rw [refillCache]
  split <;> rfl

@[simp] theorem refillIfLow_fetched (s : State) : s.refillIfLow.fetched = s.fetched := by
  rw [refillIfLow]
  split
  · exact refillCache_fetched s
  · rfl

@[simp] theorem ret_fetched (s : State) (count : Option Nat) (ids : List Id) :
    (s.ret count ids).fetched = s.fetched := rfl

@[simp] theorem wait_fetched (s : State) (c : Call) : (s.wait c).fetched = s.fetched := rfl

@[simp] theorem takeCached_fetched (s : State) (id : Id) :
    (s.takeCached id).fetched = s.fetched := rfl

@[simp] theorem tally_refillIfLow (s : State) (id : Id) : s.refillIfLow.tally id = s.tally id := by
  rw [refillIfLow]
  split
  · exact tally_refillCache s id
  · rfl

@[simp] theorem tally_ret (s : State) (count : Option Nat) (ids : List Id) (id : Id) :
    (s.ret count ids).tally id = s.tally id + ids.count id := by
  simp only [tally, ret, List.flatMap_append, List.count_append, List.flatMap_singleton]
  omega

@[simp] theorem tally_wait (s : State) (c : Call) (id : Id) :
    (s.wait c).tally id = s.tally id + c.result.count id := by
  simp only [tally, wait, List.flatMap_append, List.count_append, List.flatMap_singleton]
  omega

theorem tally_unwait (s : State) (fetched : List Id) (id : Id) (h : s.waiting[k]? = some c) :
    { s with waiting := s.waiting.eraseIdx k, fetched := fetched }.tally id + c.result.count id =
      s.tally id := by
  obtain ⟨hk, rfl⟩ := List.getElem?_eq_some_iff.mp h
  have hp := (List.getElem_cons_eraseIdx_perm hk).flatMap_right Call.result
  have hc := hp.count_eq id
  simp only [List.flatMap_cons, List.count_append] at hc
  simp only [tally]
  omega

/-- What the loop of `get_cached_ids` does, whatever it started from. -/
structure Takes (s : State) (result : List Id) (t : State) (taken : List Id) : Prop where
  frame : t = { s with idCache := t.idCache, cacheSize := t.cacheSize }
  size : t.cacheSize + taken.length = s.cacheSize + result.length
  perm : (t.idCache ++ taken).Perm (s.idCache ++ result)

theorem takeCached_takes (s : State) (result : List Id) {id : Id} (h : id ∈ s.idCache) :
    Takes s result (s.takeCached id) (result ++ [id]) where
  frame := rfl
  size := by
    simp only [takeCached, List.length_append, List.length_singleton]
    omega
  perm := by
    have hp := (List.perm_cons_erase h).symm.append_right result
    rw [← List.append_assoc]
    exact (List.perm_append_singleton id _).trans hp

theorem Takes.trans (h : Takes s result t taken) (h' : Takes t taken u all) :
    Takes s result u all where
  frame := h'.frame.trans (by rw [h.frame])
  size := h'.size.trans h.size
  perm := h'.perm.trans h.perm

theorem takeLoop_takes (count : Nat) (h : order.Perm s.idCache) :
    Takes s r (takeLoop count s r order).1 (takeLoop count s r order).2 := by
  induction order generalizing s r with
  | nil => exact ⟨rfl, rfl, .rfl⟩
  | cons id order ih =>
    have hid : id ∈ s.idCache := h.subset List.mem_cons_self
    have htake := takeCached_takes s r hid
    rw [takeLoop]
    split
    · exact htake
    · exact htake.trans (ih (List.cons_perm_iff_perm_erase.mp h).2)

theorem takeLoop_length (h : order.Perm s.idCache) (hlt : r.length < count) :
    (takeLoop count s r order).2.length = count ∨
      (takeLoop count s r order).2.length < count ∧
        (takeLoop count s r order).1.idCache = [] := by
  induction order generalizing s r with
  | nil => exact .inr ⟨hlt, List.Perm.eq_nil h.symm⟩
  | cons id order ih =>
    rw [takeLoop]
    split
    · next hge =>
      refine .inl ?_
      rw [List.length_append, List.length_singleton]
      omega
    · next hge =>
      apply ih (List.cons_perm_iff_perm_erase.mp h).2
      rw [List.length_append, List.length_singleton]
      omega

theorem Takes.tally (h : Takes s [] t taken) (id : Id) :
    t.tally id + taken.count id = s.tally id := by
  have hc := h.perm.count_eq id
  rw [List.append_nil, List.count_append] at hc
  rw [h.frame]
  simp only [State.tally]
  omega

theorem Serves.nodup (h : Serves s count ids) : ids.Nodup := (List.nodup_append'.mp h.2.2).2.1

theorem Serves.not_mem {id : Id} (h : Serves s count ids) (hid : id ∈ ids) : id ∉ s.fetched :=
  fun hold => (List.nodup_append'.mp h.2.2).2.2 hold hid

theorem foldl_addCached (s : State) (ids : List Id) :
    ids.foldl addCached s =
      { s with
        idCache := ids.foldl (fun cache id => cache.insert id) s.idCache,
        cacheSize := s.cacheSize + ids.length } := by
  induction ids generalizing s with
  | nil => simp
  | cons id ids ih =>
    rw [List.foldl_cons, ih]
    simp only [addCached, List.foldl_cons, List.length_cons]
    congr 1
    omega

theorem insert_perm {ids : List Id} (cache : List Id) (hnew : ∀ id ∈ ids, id ∉ cache)
    (hnd : ids.Nodup) :
    (ids.foldl (fun cache id => cache.insert id) cache).Perm (cache ++ ids) := by
  induction ids generalizing cache with
  | nil => simp
  | cons id ids ih =>
    obtain ⟨hid, hnd⟩ := List.nodup_cons.mp hnd
    rw [List.foldl_cons, List.insert_of_not_mem (hnew id List.mem_cons_self)]
    refine (ih (id :: cache) ?_ hnd).trans List.perm_middle.symm
    intro other hmem
    rw [List.mem_cons]
    rintro (rfl | hc)
    · exact hid hmem
    · exact hnew other (List.mem_cons_of_mem _ hmem) hc

end State

/-- What does not depend on which ids there are. -/
structure Books (s : State) : Prop where
  size : s.cacheSize = s.idCache.length
  refills : s.refills.length = if s.isRefilling then 1 else 0
  missing : ∀ count result, .newids count result ∈ s.waiting → result.length < count
  counts : ∀ r ∈ s.returned, ∀ count, r.count = some count → 1 ≤ count → r.ids.length = count

namespace Books

theorem refillCache (h : Books s) : Books s.refillCache := by
  rw [State.refillCache]
  split
  · exact h
  · next hr =>
    refine { h with refills := ?_ }
    rw [List.length_append, h.refills, if_neg hr]
    rfl

theorem refillIfLow (h : Books s) : Books s.refillIfLow := by
  rw [State.refillIfLow]
  split
  · exact h.refillCache
  · exact h

theorem ret (h : Books s) (hc : ∀ n, count = some n → 1 ≤ n → ids.length = n) :
    Books (s.ret count ids) := by
  refine { h with counts := ?_ }
  intro r hr n hn hpos
  rcases List.mem_append.mp hr with hr | hr
  · exact h.counts r hr n hn hpos
  · cases List.mem_singleton.mp hr
    exact hc n hn hpos

theorem takes (h : Books s) (ht : State.Takes s [] t taken) : Books t := by
  have hlen := ht.perm.length_eq
  rw [List.length_append, List.append_nil] at hlen
  have hsize := ht.size
  have hbefore := h.size
  rw [ht.frame]
  refine { h with size := ?_ }
  simp only [List.length_nil] at hsize
  change t.cacheSize = t.idCache.length
  omega

theorem wait (h : Books s) (hc : ∀ count result, c = .newids count result → result.length < count) :
    Books (s.wait c) := by
  refine { h with missing := ?_ }
  intro count result hmem
  rcases List.mem_append.mp hmem with hmem | hmem
  · exact h.missing count result hmem
  · exact hc count result (List.mem_singleton.mp hmem).symm

theorem unwait (h : Books s) (k : Nat) (fetched dropped : List Id) :
    Books { s with waiting := s.waiting.eraseIdx k, fetched := fetched, dropped := dropped } :=
  { h with
    missing := fun count result hmem => h.missing count result (List.mem_of_mem_eraseIdx hmem) }

theorem getCachedId (h : Books s) (hp : order.Perm s.idCache) : Books (s.getCachedId order) := by
  cases order with
  | nil => exact h.refillCache.wait (by rintro _ _ ⟨⟩)
  | cons id order =>
    have ht := State.takeCached_takes s [] (hp.subset List.mem_cons_self)
    exact (h.takes ht).refillIfLow.ret (by rintro _ ⟨⟩)

theorem getCachedIds (h : Books s) (count : Nat) (hp : order.Perm s.idCache) :
    Books (s.getCachedIds count order) := by
  have ht := h.takes (State.takeLoop_takes count hp (r := []))
  rw [State.getCachedIds]
  split
  · next hmore =>
    refine ht.refillIfLow.wait ?_
    rintro _ _ ⟨⟩
    omega
  · next hdone =>
    refine ht.refillIfLow.ret ?_
    rintro _ ⟨⟩ hpos
    rcases State.takeLoop_length hp (r := []) hpos with he | ⟨hlt, _⟩
    · exact he
    · omega

theorem replied (h : Books s) (hc : c ∈ s.waiting) (hs : State.Serves t c.request ids) (k : Nat) :
    Books ({ s with waiting := s.waiting.eraseIdx k, fetched := f }.replied c ids) := by
  have hu := h.unwait k f s.dropped
  cases c with
  | newid => exact hu.ret (by rintro _ ⟨⟩)
  | newids count result =>
    refine hu.refillIfLow.ret ?_
    rintro _ ⟨⟩ _
    have hlt := h.missing count result hc
    have hlen := hs.2.1
    rw [Call.request, Snowflake.Cluster.clamp] at hlen
    rw [List.length_append, hlen]
    omega

theorem refillGone (h : Books s) (hk : s.refills[k]? = some r) :
    (s.refills.eraseIdx k).length = 0 := by
  obtain ⟨hlt, _⟩ := List.getElem?_eq_some_iff.mp hk
  have hlen := h.refills
  rw [List.length_eraseIdx_of_lt hlt]
  split at hlen <;> omega

theorem refilled (h : Books s) (hk : s.refills[k]? = some r) (hs : s.Serves n ids)
    (hnew : ∀ id ∈ ids, id ∉ s.idCache) :
    Books { ids.foldl State.addCached { s with fetched := s.fetched ++ ids } with
      isRefilling := false, refills := s.refills.eraseIdx k } := by
  have hlen := (State.insert_perm s.idCache hnew hs.nodup).length_eq
  have hsize := h.size
  rw [List.length_append] at hlen
  rw [State.foldl_addCached]
  refine { h with size := ?_, refills := h.refillGone hk }
  dsimp only
  omega

end Books

/-- What holds in every run, failing fetches included. -/
structure Inv (s : State) : Prop where
  books : Books s
  fresh : s.fetched.Nodup
  tally : ∀ id, s.tally id = s.fetched.count id

namespace Inv

/-- An id the service has handed out is in one place only. -/
theorem tally_le (h : Inv s) (id : Id) : s.tally id ≤ 1 := by
  rw [h.tally id]
  exact List.nodup_iff_count_le_one.mp h.fresh id

theorem mem_fetched (h : Inv s) {id : Id} (hid : id ∈ s.idCache) : id ∈ s.fetched := by
  have hpos := List.count_pos_iff.mpr hid
  apply List.count_pos_iff.mp
  rw [← h.tally id, State.tally]
  omega

theorem refillCache (h : Inv s) : Inv s.refillCache where
  books := h.books.refillCache
  fresh := by simpa using h.fresh
  tally := by simpa using h.tally

theorem getCachedId (h : Inv s) (hp : order.Perm s.idCache) : Inv (s.getCachedId order) := by
  refine ⟨h.books.getCachedId hp, ?_, ?_⟩
  · cases order <;> simpa [State.getCachedId] using h.fresh
  · intro id
    cases order with
    | nil => simpa [State.getCachedId, Call.result] using h.tally id
    | cons first order =>
      have ht := (State.takeCached_takes s [] (hp.subset List.mem_cons_self)).tally id
      simpa [State.getCachedId] using ht.trans (h.tally id)

theorem getCachedIds (h : Inv s) (count : Nat) (hp : order.Perm s.idCache) :
    Inv (s.getCachedIds count order) := by
  have ht := State.takeLoop_takes count hp (r := [])
  have hf : (State.takeLoop count s [] order).1.fetched = s.fetched := by
    rw [ht.frame]
  refine ⟨h.books.getCachedIds count hp, ?_, ?_⟩
  · rw [State.getCachedIds]
    split <;> simpa [hf] using h.fresh
  · intro id
    have htally := (ht.tally id).trans (h.tally id)
    rw [State.getCachedIds]
    split
    · simpa [Call.result, hf] using htally
    · simpa [hf] using htally

theorem refilled (h : Inv s) (hk : s.refills[k]? = some r) (hs : s.Serves n ids) :
    Inv { ids.foldl State.addCached { s with fetched := s.fetched ++ ids } with
      isRefilling := false, refills := s.refills.eraseIdx k } := by
  have hnew : ∀ id ∈ ids, id ∉ s.idCache := by
    intro id hid hc
    exact hs.not_mem hid (h.mem_fetched hc)
  refine ⟨h.books.refilled hk hs hnew, ?_, ?_⟩
  · rw [State.foldl_addCached]
    exact hs.2.2
  · intro id
    have hc := (State.insert_perm s.idCache hnew hs.nodup).count_eq id
    have ht := h.tally id
    rw [State.foldl_addCached]
    simp only [State.tally, List.count_append] at hc ht ⊢
    omega

theorem replied (h : Inv s) (hk : s.waiting[k]? = some c) (hs : s.Serves c.request ids) :
    Inv ({ s with
      waiting := s.waiting.eraseIdx k, fetched := s.fetched ++ ids }.replied c ids) := by
  refine ⟨h.books.replied (List.mem_of_getElem? hk) hs k, ?_, ?_⟩
  · cases c <;> simpa [State.replied] using hs.2.2
  · intro id
    have hu := State.tally_unwait s (s.fetched ++ ids) id hk
    have ht := h.tally id
    cases c with
    | newid =>
      simp [State.replied, Call.result] at hu ⊢
      omega
    | newids count result =>
      simp [State.replied, Call.result] at hu ⊢
      omega

theorem failed (h : Inv s) (hk : s.waiting[k]? = some c) :
    Inv { s with waiting := s.waiting.eraseIdx k, dropped := s.dropped ++ c.result } := by
  refine ⟨h.books.unwait k s.fetched _, h.fresh, ?_⟩
  intro id
  have hu := State.tally_unwait s s.fetched id hk
  have ht := h.tally id
  simp only [State.tally, List.count_append] at hu ht ⊢
  omega

theorem step (h : Inv s) (hstep : State.step s a = some t) : Inv t := by
  cases a with
  | init =>
    cases hstep
    exact h.refillCache
  | startRefill k =>
    obtain ⟨_, ⟨⟩⟩ := Option.ite_none_right_eq_some.mp hstep
    refine ⟨{ h.books with refills := ?_ }, h.fresh, h.tally⟩
    rw [List.length_set]
    exact h.books.refills
  | refilled k ids =>
    obtain ⟨⟨hk, hs⟩, ⟨⟩⟩ := Option.ite_none_right_eq_some.mp hstep
    have hr := h.refilled hk hs
    rw [State.foldl_addCached] at hr ⊢
    exact hr
  | refillFailed k =>
    obtain ⟨hk, ⟨⟩⟩ := Option.ite_none_right_eq_some.mp hstep
    exact ⟨{ h.books with refills := h.books.refillGone hk }, h.fresh, h.tally⟩
  | newid order =>
    obtain ⟨hp, ⟨⟩⟩ := Option.ite_none_right_eq_some.mp hstep
    exact h.getCachedId hp
  | newids count order =>
    obtain ⟨hp, ⟨⟩⟩ := Option.ite_none_right_eq_some.mp hstep
    exact h.getCachedIds count hp
  | reply k ids =>
    obtain ⟨c, hk, hif⟩ := Option.bind_eq_some_iff.mp hstep
    obtain ⟨hs, ⟨⟩⟩ := Option.ite_none_right_eq_some.mp hif
    exact h.replied hk hs
  | fail k =>
    obtain ⟨c, hk, ⟨⟩⟩ := Option.bind_eq_some_iff.mp hstep
    exact h.failed hk

end Inv

theorem reaches_inv (h : system.Reaches ok s) : Inv s := by
  refine h.invariant ?_ ?_
  · rintro _ rfl
    refine ⟨⟨rfl, rfl, ?_, ?_⟩, List.nodup_nil, fun _ => rfl⟩
    · intro count result hmem
      cases hmem
    · intro r hr
      cases hr
  · intro s a t hs _ hstep
    exact hs.step hstep

/-- A direct fetch of `newids` is neither too large for the service nor refused by it. -/
def Fetches (s : State) : Action → Prop
  | .newids count _ => count ≤ s.idCache.length + Snowflake.Cluster.maxCount
  | .fail k => s.waiting[k]? = some .newid
  | _ => True

instance : Decidable (Fetches s a) := by
  cases a <;> unfold Fetches <;> infer_instance

/-- What only holds as long as no direct fetch of `newids` fails. -/
structure Whole (s : State) : Prop where
  dropped : s.dropped = []
  served : ∀ c ∈ s.waiting, c.request ≤ Snowflake.Cluster.maxCount

namespace Whole

theorem refillCache (h : Whole s) : Whole s.refillCache := by
  rw [State.refillCache]
  split
  · exact h
  · exact { h with }

theorem refillIfLow (h : Whole s) : Whole s.refillIfLow := by
  rw [State.refillIfLow]
  split
  · exact h.refillCache
  · exact h

theorem ret (h : Whole s) : Whole (s.ret count ids) := { h with }

theorem takes (h : Whole s) (ht : State.Takes s [] t taken) : Whole t := by
  rw [ht.frame]
  exact { h with }

theorem wait (h : Whole s) (hc : c.request ≤ Snowflake.Cluster.maxCount) : Whole (s.wait c) := by
  refine { h with served := ?_ }
  intro c' hmem
  rcases List.mem_append.mp hmem with hmem | hmem
  · exact h.served c' hmem
  · exact List.mem_singleton.mp hmem ▸ hc

theorem unwait (h : Whole s) (k : Nat) (fetched : List Id) :
    Whole { s with waiting := s.waiting.eraseIdx k, fetched := fetched } :=
  { h with served := fun c hmem => h.served c (List.mem_of_mem_eraseIdx hmem) }

theorem replied (h : Whole s) (c : Call) : Whole (s.replied c ids) := by
  cases c with
  | newid => exact h.ret
  | newids count result => exact h.refillIfLow.ret

theorem getCachedId (h : Whole s) (hp : order.Perm s.idCache) : Whole (s.getCachedId order) := by
  cases order with
  | nil => exact h.refillCache.wait (by decide)
  | cons id order =>
    have ht := State.takeCached_takes s [] (hp.subset List.mem_cons_self)
    exact (h.takes ht).refillIfLow.ret

theorem getCachedIds (h : Whole s) (hp : order.Perm s.idCache)
    (hcount : count ≤ s.idCache.length + Snowflake.Cluster.maxCount) :
    Whole (s.getCachedIds count order) := by
  have ht := State.takeLoop_takes count hp (r := [])
  rw [State.getCachedIds]
  split
  · next hmore =>
    refine (h.takes ht).refillIfLow.wait ?_
    -- the whole cache has been taken
    have hlen := ht.perm.length_eq
    have hpos : 0 < count := by omega
    rcases State.takeLoop_length hp (r := []) hpos with he | ⟨_, hempty⟩
    · omega
    · rw [hempty, List.append_nil, List.nil_append] at hlen
      change count - _ ≤ _
      omega
  · exact (h.takes ht).refillIfLow.ret

theorem step (h : Whole s) (hok : Fetches s a) (hstep : State.step s a = some t) : Whole t := by
  cases a with
  | init =>
    cases hstep
    exact h.refillCache
  | startRefill k =>
    obtain ⟨_, ⟨⟩⟩ := Option.ite_none_right_eq_some.mp hstep
    exact { h with }
  | refilled k ids =>
    obtain ⟨_, ⟨⟩⟩ := Option.ite_none_right_eq_some.mp hstep
    rw [State.foldl_addCached]
    exact { h with }
  | refillFailed k =>
    obtain ⟨_, ⟨⟩⟩ := Option.ite_none_right_eq_some.mp hstep
    exact { h with }
  | newid order =>
    obtain ⟨hp, ⟨⟩⟩ := Option.ite_none_right_eq_some.mp hstep
    exact h.getCachedId hp
  | newids count order =>
    obtain ⟨hp, ⟨⟩⟩ := Option.ite_none_right_eq_some.mp hstep
    exact h.getCachedIds hp hok
  | reply k ids =>
    obtain ⟨c, hk, hif⟩ := Option.bind_eq_some_iff.mp hstep
    obtain ⟨hs, ⟨⟩⟩ := Option.ite_none_right_eq_some.mp hif
    exact (h.unwait k _).replied c
  | fail k =>
    obtain ⟨c, hk, ⟨⟩⟩ := Option.bind_eq_some_iff.mp hstep
    cases Option.some.inj (hk.symm.trans hok)
    exact { h.unwait k s.fetched with dropped := by rw [h.dropped]; rfl }

end Whole

theorem reaches_whole (h : system.Reaches Fetches s) : Whole s := by
  refine h.invariant ?_ fun s a t hs hok hstep => hs.step hok hstep
  rintro _ rfl
  refine ⟨rfl, ?_⟩
  intro c hmem
  cases hmem

/-- Each id is in one place, the counter is right, and nobody loses one or gets too few. -/
structure Accounted (s : State) : Prop where
  size : s.cacheSize = s.idCache.length
  distinct : (s.idCache ++ s.returned.flatMap Return.ids).Nodup
  kept : ∀ id ∈ s.fetched, id ∈ s.idCache ∨ (∃ c ∈ s.waiting, id ∈ c.result) ∨
    ∃ r ∈ s.returned, id ∈ r.ids
  counts : ∀ r ∈ s.returned, ∀ count, r.count = some count → 1 ≤ count →
    r.ids.length = count ∧ r.ids.Nodup
  served : ∀ c ∈ s.waiting, c.request ≤ Snowflake.Cluster.maxCount
  single : s.refills.length ≤ 1

theorem Inv.accounted (h : Inv s) (hw : Whole s) : Accounted s := by
  have hle := h.tally_le
  have hnd : (s.idCache ++ s.returned.flatMap Return.ids).Nodup := by
    refine List.nodup_iff_count_le_one.mpr ?_
    intro id
    have hid := hle id
    rw [State.tally] at hid
    rw [List.count_append]
    omega
  refine ⟨h.books.size, hnd, ?_, ?_, hw.served, ?_⟩
  · intro id hid
    have ht := h.tally id
    have hpos := List.count_pos_iff.mpr hid
    rw [State.tally, hw.dropped, List.count_nil] at ht
    by_cases hcache : id ∈ s.idCache
    · exact .inl hcache
    · by_cases hwait : id ∈ s.waiting.flatMap Call.result
      · exact .inr (.inl (List.mem_flatMap.mp hwait))
      · have hret : 0 < (s.returned.flatMap Return.ids).count id := by
          rw [List.count_eq_zero.mpr hcache, List.count_eq_zero.mpr hwait] at ht
          omega
        exact .inr (.inr (List.mem_flatMap.mp (List.count_pos_iff.mp hret)))
  · intro r hr count hc hpos
    refine ⟨h.books.counts r hr count hc hpos, ?_⟩
    exact (List.nodup_flatMap.mp (List.nodup_append'.mp hnd).2.1).1 r hr
  · rw [h.books.refills]
    split <;> decide

/-- As long as no direct fetch of `newids` fails, every id is accounted for. -/
theorem ids_accounted (h : system.Reaches Fetches s) : Accounted s :=
  (reaches_inv h).accounted (reaches_whole h)

theorem ids_accounted_served :
    ∃ s, system.Reaches Fetches s ∧ s.returned.length = 2 ∧ Accounted s :=
  have hr := system.run_reaches Fetches
    [.newids 3 [], .reply 0 [1, 2, 3], .startRefill 0, .newid [], .reply 0 [4]] rfl
    (by decide +kernel)
  ⟨_, hr, by decide +kernel, ids_accounted hr⟩

/-- The batch prefetched at the start. -/
def prefetched : List Id := (List.range refillSize).map (BitVec.ofNat 64)

theorem prefetched_nodup : prefetched.Nodup := by
  refine List.Nodup.map_on ?_ List.nodup_range
  intro a ha b hb he
  rw [List.mem_range] at ha hb
  have hnat := congrArg BitVec.toNat he
  rw [BitVec.toNat_ofNat, BitVec.toNat_ofNat] at hnat
  have hsize : refillSize = 1000 := rfl
  omega

theorem prefetched_length : prefetched.length = refillSize := by
  rw [prefetched, List.length_map, List.length_range]

theorem prefetched_serves (h : s.fetched = []) : State.Serves s refillSize prefetched := by
  refine ⟨?_, ?_, ?_⟩
  · simp [refillSize, cacheCapacity, Snowflake.Cluster.maxCount]
  · simp [prefetched_length, refillSize, cacheCapacity, Snowflake.Cluster.clamp]
  · simpa [h] using prefetched_nodup

theorem reaches_refilled (hs : State.Serves {} refillSize ids) :
    ∃ s, system.Reaches anyStep s ∧ s.idCache.Perm ids := by
  have hinit : system.step {} .init = some { isRefilling := true, refills := [.forked] } := rfl
  have hstart : system.step { isRefilling := true, refills := [.forked] } (.startRefill 0) =
      some { isRefilling := true, refills := [.fetching] } := rfl
  have hrefilled : system.step { isRefilling := true, refills := [.fetching] }
      (.refilled 0 ids) = some _ := if_pos ⟨rfl, hs⟩
  have hr : system.Reaches anyStep {} := .init rfl
  refine ⟨_, ((hr.step trivial hinit).step trivial hstart).step trivial hrefilled, ?_⟩
  rw [State.foldl_addCached]
  exact State.insert_perm [] (by simp) hs.nodup

theorem Inv.not_kept (h : Inv s) {id : Id} (hid : id ∈ s.dropped) : ¬ Accounted s := by
  intro ha
  have hle := h.tally_le id
  have hpos := List.count_pos_iff.mpr hid
  have hfetched : id ∈ s.fetched := by
    apply List.count_pos_iff.mp
    rw [← h.tally id, State.tally]
    omega
  rw [State.tally] at hle
  rcases ha.kept id hfetched with hc | hc | hc
  · have hpos' := List.count_pos_iff.mpr hc
    omega
  · have hpos' := List.count_pos_iff.mpr (List.mem_flatMap.mpr hc)
    omega
  · have hpos' := List.count_pos_iff.mpr (List.mem_flatMap.mpr hc)
    omega

theorem step_fail_wait (s : State) (c : Call) :
    system.step (s.wait c) (.fail s.waiting.length) =
      some { s with dropped := s.dropped ++ c.result } := by
  simp [system, State.step, State.wait, List.eraseIdx_append_of_length_le]

/-- A call for more ids than the cache holds and the service gives at once loses what it has
taken as soon as the service answers. -/
theorem newids_drops (hr : system.Reaches anyStep s) (hne : s.idCache ≠ [])
    (hcount : s.idCache.length + Snowflake.Cluster.maxCount < count) :
    ∃ t, system.Reaches anyStep t ∧ ¬ Accounted t := by
  have htake := State.takeLoop_takes count (List.Perm.refl s.idCache) (r := [])
  have hlen := htake.perm.length_eq
  rw [List.length_append, List.append_nil] at hlen
  have hempty : (State.takeLoop count s [] s.idCache).1.idCache = [] := by
    rcases State.takeLoop_length (List.Perm.refl s.idCache) (r := [])
      (Nat.zero_lt_of_lt hcount) with he | ⟨_, he⟩
    · omega
    · exact he
  rw [hempty, List.length_nil, Nat.zero_add] at hlen
  have hcall : system.step s (.newids count s.idCache) = some (s.getCachedIds count s.idCache) :=
    if_pos (List.Perm.refl _)
  rw [State.getCachedIds, if_pos (by omega)] at hcall
  have hlost := (hr.step trivial hcall).step trivial (step_fail_wait _ _)
  obtain ⟨id, hid⟩ := List.exists_mem_of_length_pos (hlen ▸ List.length_pos_iff.mpr hne)
  exact ⟨_, hlost, (reaches_inv hlost).not_kept (List.mem_append_right _ hid)⟩

/-- A call for twenty thousand ids empties the cache, and its direct fetch is refused. -/
theorem ids_dropped : ¬ ∀ s, system.Reaches anyStep s → Accounted s := by
  intro hall
  obtain ⟨s, hr, hcache⟩ := reaches_refilled (prefetched_serves rfl)
  have hlen : s.idCache.length = 1000 := hcache.length_eq.trans prefetched_length
  have hne : s.idCache ≠ [] := List.ne_nil_of_length_pos (by omega)
  have hcount : s.idCache.length + Snowflake.Cluster.maxCount < 20000 := by
    rw [hlen, Snowflake.Cluster.maxCount]
    decide +kernel
  obtain ⟨t, ht, hbad⟩ := newids_drops hr hne hcount
  exact hbad (hall t ht)

end IdGenerator
end Skyext
