import Mathlib.Tactic.IntervalCases
import Skyext.Discovery.ServiceObj

namespace Skyext
set_option autoImplicit true

namespace ServiceObj
open Machine

variable {service : Name} {known : Name → Option Nat} {m : Nodes} {keys : Keys} {found : Found}
  {history : List (List Event)} {s t : State} {node key : Name} {ev : Event} {evs : List Event}

/-- The name of a node as it stands in a key. -/
def Proper (node : Name) : Prop := node ≠ [] ∧ '/' ∉ node

/-- The node holds a key of the service at revision `r`. -/
def HoldsAt (history : List (List Event)) (r : Nat) (node : Name) : Prop :=
  Proper node ∧ node ∈ keysAt history r

/-- The node registered in one of the revisions after `r`, up to `r'`. -/
def RegisteredBetween (history : List (List Event)) (r r' : Nat) (node : Name) : Prop :=
  ∃ k evs value, r ≤ k ∧ k < r' ∧ history[k]? = some evs ∧ .put node value ∈ evs

/-- Every list given out is the set of the nodes that hold a key at one revision; these revisions
never decrease, and no node comes back that did not register again. -/
structure State.Whole (s : State) : Prop where
  exact : ∀ g ∈ s.given, g.revision ≤ s.history.length ∧
    ∀ node, node ∈ g.nodes ↔ HoldsAt s.history g.revision node
  ordered : s.given.Pairwise fun g g' => g.revision ≤ g'.revision ∧
    ∀ node ∈ g'.nodes, node ∉ g.nodes → RegisteredBetween s.history g.revision g'.revision node

/-- A key under the prefix of the service is one of the service, not of another whose name goes on
after a slash. -/
def Direct (service : Name) (ev : Event) : Prop :=
  (resolve service ev.key).isSome → '/' ∉ ev.key

def Readable (keys : Keys) : Prop := ∀ kv ∈ keys.entries, kv.2 ≠ .unreadable

def SameNames (a b : List Name) : Prop := a ⊆ b ∧ b ⊆ a

/-- The loop of `first_query` does not stop at the node. -/
def acceptable (s : State) (found : Found) (node : Name) : Bool :=
  check s.known node ((found.lookup node).getD none) = .done

/-- What a read stores before it raises has the nodes that were there before. -/
def Spared (s : State) (order : List Name) (found : Found) : Prop :=
  match order.dropWhile (acceptable s found) with
  | [] => True
  | node :: _ =>
    (found.lookup node).getD none = none →
      SameNames (order.takeWhile (acceptable s found)) s.mapNode.keys

/-- What comes before the event that a revision is abandoned at leaves the nodes as they were. -/
def Unbroken (service : Name) (s : State) (n : Nat) : Prop :=
  let r := s.position + s.whole service n
  match (s.upcoming n)[s.whole service n]? with
  | none => True
  | some evs =>
    SameNames ((evs.takeWhile (State.accepts service s.known)).foldl Event.change
      (keysAt s.history r)).keys (keysAt s.history r).keys

/-- Services have names without slashes as far as this one is concerned, no read meets a value that
decodes to nil, and neither a read nor a batch stops half way after a change of the nodes. -/
def Careful (service : Name) (s : State) : Action → Prop
  | .change evs => ∀ ev ∈ evs, Direct service ev
  | .query r order =>
    Readable (keysAt s.history r) ∧ (s.etcdRevision.isSome →
      ∀ found ∈ etcdQueryService service (keysAt s.history r), Spared s order found)
  | .batch n _ => Unbroken service s n
  | _ => True

instance : Decidable (Direct service ev) := inferInstanceAs (Decidable (_ → _))

instance : Decidable (Readable keys) := inferInstanceAs (Decidable (∀ kv ∈ keys.entries, _))

instance (a b : List Name) : Decidable (SameNames a b) := inferInstanceAs (Decidable (_ ∧ _))

instance (s : State) (order : List Name) (found : Found) : Decidable (Spared s order found) := by
  unfold Spared
  split <;> infer_instance

instance : Decidable (Unbroken service s n) := by
  unfold Unbroken
  split <;> infer_instance

instance (s : State) (a : Action) : Decidable (Careful service s a) := by
  cases a <;> unfold Careful <;> infer_instance

theorem resolveServiceName_slash (p : Name) (hkey : '/' ∉ key)
    (h : resolveServiceName (p ++ '/' :: key) = some (x, node)) : key = node ∧ Proper node := by
  have hall : ∀ c ∈ key.reverse, (decide (c ≠ '/')) = true := by
    intro c hc
    simp only [decide_eq_true_eq]
    rintro rfl
    exact hkey (List.mem_reverse.mp hc)
  have hrev : (p ++ '/' :: key).reverse = key.reverse ++ '/' :: p.reverse := by simp
  have htake : ((p ++ '/' :: key).reverse.takeWhile (· ≠ '/')) = key.reverse := by
    rw [hrev, List.takeWhile_append_of_pos hall]
    simp
  rw [resolveServiceName, htake] at h
  simp only at h
  split at h
  · cases h
  · split at h
    · cases h
    · next hne =>
      have he := (Prod.mk.inj (Option.some.inj h)).2
      rw [List.reverse_reverse] at he
      subst he
      refine ⟨rfl, ?_, hkey⟩
      rintro rfl
      exact hne (.inl rfl)

theorem prefix_append (p : Name) : p ++ service ++ ['/'] ++ key = (p ++ service) ++ '/' :: key := by
  rw [List.append_assoc _ ['/'] key, List.singleton_append]

theorem resolve_direct (h : resolve service key = some node) (hkey : '/' ∉ key) :
    key = node ∧ Proper node := by
  obtain ⟨e, hr, he⟩ := Option.map_eq_some_iff.mp h
  subst he
  unfold makeServiceKeyPrefix at hr
  rw [prefix_append] at hr
  exact resolveServiceName_slash _ hkey hr

/-- The nodes that are listed are those with a key. -/
def Stands (m : Nodes) (keys : Keys) : Prop := ∀ node, node ∈ m ↔ Proper node ∧ node ∈ keys

theorem Stands.insert (h : Stands m keys) (hproper : Proper node) (rev : Nat) (value : Stored) :
    Stands (m.insert node rev) (keys.insert node value) := by
  intro x
  rw [AList.mem_insert, AList.mem_insert, h x]
  constructor
  · rintro (rfl | ⟨hx, hmem⟩)
    · exact ⟨hproper, .inl rfl⟩
    · exact ⟨hx, .inr hmem⟩
  · rintro ⟨hx, rfl | hmem⟩
    · exact .inl rfl
    · exact .inr ⟨hx, hmem⟩

theorem Stands.erase (h : Stands m keys) (node : Name) :
    Stands (m.erase node) (keys.erase node) := by
  intro x
  rw [AList.mem_erase, AList.mem_erase, h x]
  tauto

theorem updateNode_done (m : Nodes) (h : check known node info = .done) :
    ∃ rev, updateNode known m node info = (.done, m.insert node rev) := by
  cases info with
  | none => cases h
  | some rev => exact ⟨rev, by simp only [updateNode, h]⟩

theorem updateNode_stopped (m : Nodes) (h : check known node info ≠ .done) :
    updateNode known m node info = (check known node info, m) := by
  unfold updateNode
  split
  · next hc => exact absurd hc h
  · rfl

theorem fill_spec (s : State) (found : Found) (order : List Name) (m : Nodes) :
    (fill s.known found m order).1 =
      (match order.dropWhile (acceptable s found) with
        | [] => .done
        | node :: _ => check s.known node ((found.lookup node).getD none)) ∧
    ∀ x, x ∈ (fill s.known found m order).2 ↔
      x ∈ m ∨ x ∈ order.takeWhile (acceptable s found) := by
  induction order generalizing m with
  | nil => exact ⟨rfl, fun x => by simp [fill]⟩
  | cons node order ih =>
    by_cases hc : check s.known node ((found.lookup node).getD none) = .done
    · have hacc : acceptable s found node = true := decide_eq_true hc
      obtain ⟨rev, hu⟩ := updateNode_done m hc
      obtain ⟨hout, hmem⟩ := ih (m.insert node rev)
      simp only [fill, hu, List.dropWhile_cons_of_pos hacc, List.takeWhile_cons_of_pos hacc]
      refine ⟨hout, fun x => ?_⟩
      rw [hmem, AList.mem_insert, List.mem_cons]
      tauto
    · have hacc : ¬ acceptable s found node = true := by simpa [acceptable] using hc
      have hu := updateNode_stopped m hc
      have hstop : fill s.known found m (node :: order) =
          (check s.known node ((found.lookup node).getD none), m) := by
        rw [fill, hu]
        split
        · next heq => exact absurd (Prod.mk.inj heq).1 hc
        · rfl
      rw [hstop, List.dropWhile_cons_of_neg hacc, List.takeWhile_cons_of_neg hacc]
      exact ⟨rfl, fun x => by simp⟩

/-- The loop of `watch` stops at the first event it does not take, and until then the nodes follow
the keys. -/
theorem watchEvents_spec (hdirect : ∀ ev ∈ evs, Direct service ev) (h : Stands m keys) :
    (watchEvents service known m evs).1 = evs.all (State.accepts service known) ∧
      Stands (watchEvents service known m evs).2
        ((evs.takeWhile (State.accepts service known)).foldl Event.change keys) := by
  induction evs generalizing m keys with
  | nil => exact ⟨rfl, h⟩
  | cons ev evs ih =>
    have hrest : ∀ ev ∈ evs, Direct service ev :=
      fun ev hev => hdirect ev (List.mem_cons_of_mem _ hev)
    have hev := hdirect ev List.mem_cons_self
    cases hr : resolve service ev.key with
    | none =>
      have hacc : State.accepts service known ev = false := by simp [State.accepts, hr]
      simp [watchEvents, hr, hacc, h]
    | some node =>
      obtain ⟨hkey, hproper⟩ := resolve_direct hr (hev (by rw [hr]; rfl))
      cases ev with
      | delete key =>
        have hacc : State.accepts service known (.delete key) = true := by simp [State.accepts, hr]
        obtain rfl : key = node := hkey
        have hstep := ih hrest (h.erase key)
        simpa [watchEvents, hr, hacc, Event.change] using hstep
      | put key value =>
        obtain rfl : key = node := hkey
        by_cases hc : check known key value.nodeRevision = .done
        · have hacc : State.accepts service known (.put key value) = true := by
            simp [State.accepts, hr, hc]
          obtain ⟨rev, hu⟩ := updateNode_done m hc
          have hstep := ih hrest (h.insert hproper rev value)
          simpa [watchEvents, hr, hu, hacc, Event.change] using hstep
        · have hacc : State.accepts service known (.put key value) = false := by
            simp [State.accepts, hr, hc]
          have hu := updateNode_stopped m hc
          have hstop : watchEvents service known m (.put key value :: evs) = (false, m) := by
            simp only [watchEvents, hr, hu]
          simp [hstop, hacc, h]

theorem keysAt_append (later : List (List Event)) (h : r ≤ history.length) :
    keysAt (history ++ later) r = keysAt history r := by
  rw [keysAt, List.take_append_of_le_length h, ← keysAt]

theorem keysAt_add (history : List (List Event)) (r n : Nat) :
    keysAt history (r + n) =
      ((history.drop r).take n).flatten.foldl Event.change (keysAt history r) := by
  rw [keysAt, List.take_add, List.flatten_append, List.foldl_append, ← keysAt]

theorem mem_changes (h : key ∈ evs.foldl Event.change keys) :
    key ∈ keys ∨ ∃ value, .put key value ∈ evs := by
  induction evs generalizing keys with
  | nil => exact .inl h
  | cons ev evs ih =>
    rcases ih h with h | ⟨value, hput⟩
    · cases ev with
      | put k value =>
        rcases (AList.mem_insert _).mp h with rfl | h
        · exact .inr ⟨value, List.mem_cons_self⟩
        · exact .inl h
      | delete k => exact .inl (AList.mem_erase.mp h).2
    · exact .inr ⟨value, List.mem_cons_of_mem _ hput⟩

theorem registered_between (hle : r ≤ r') (hnot : ¬ HoldsAt history r node)
    (h : HoldsAt history r' node) : RegisteredBetween history r r' node := by
  obtain ⟨hproper, hmem⟩ := h
  obtain ⟨n, rfl⟩ := Nat.exists_eq_add_of_le hle
  rw [keysAt_add] at hmem
  rcases mem_changes hmem with hold | ⟨value, hput⟩
  · exact absurd ⟨hproper, hold⟩ hnot
  · obtain ⟨evs, hevs, hin⟩ := List.mem_flatten.mp hput
    obtain ⟨i, hi, hget⟩ := List.getElem_of_mem hevs
    rw [List.length_take] at hi
    refine ⟨r + i, evs, value, Nat.le_add_right r i, by omega, ?_, hin⟩
    rw [← hget, List.getElem_take, List.getElem_drop]
    exact List.getElem?_eq_getElem _

theorem direct_keysAt (hdirect : ∀ evs ∈ history, ∀ ev ∈ evs, Direct service ev)
    (h : key ∈ keysAt history r) (hr : resolve service key = some node) :
    key = node ∧ Proper node := by
  rcases mem_changes h with hempty | ⟨value, hput⟩
  · exact absurd hempty (AList.notMem_empty key)
  · obtain ⟨evs, hevs, hin⟩ := List.mem_flatten.mp hput
    refine resolve_direct hr (hdirect evs (List.mem_of_mem_take hevs) _ hin ?_)
    rw [Event.key, hr]
    rfl

/-- What a query finds are the keys, all of which are of nodes. -/
theorem queryFrom_spec (kvs : List (Σ _ : Name, Stored))
    (hdirect : ∀ kv ∈ kvs, ∀ node, resolve service kv.1 = some node → kv.1 = node ∧ Proper node)
    (hread : ∀ kv ∈ kvs, kv.2 ≠ .unreadable) (h : queryFrom service found kvs = some found') :
    (∀ node ∈ kvs.keys, Proper node) ∧ ∀ node, node ∈ found' ↔ node ∈ found ∨ node ∈ kvs.keys := by
  induction kvs generalizing found with
  | nil =>
    cases h
    simp
  | cons kv kvs ih =>
    obtain ⟨key, value⟩ := kv
    have hrest : ∀ kv ∈ kvs, kv.2 ≠ .unreadable :=
      fun kv hkv => hread kv (List.mem_cons_of_mem _ hkv)
    cases hr : resolve service key with
    | none => simp only [queryFrom, hr, reduceCtorEq] at h
    | some node =>
      obtain ⟨hkey, hproper⟩ := hdirect _ List.mem_cons_self node hr
      obtain rfl : key = node := hkey
      cases value with
      | unreadable => exact absurd rfl (hread _ List.mem_cons_self)
      | entry rev =>
        simp only [queryFrom, hr] at h
        obtain ⟨hall, hmem⟩ :=
          ih (fun kv hkv => hdirect kv (List.mem_cons_of_mem _ hkv)) hrest h
        constructor
        · intro x hx
          rw [List.keys_cons] at hx
          rcases List.mem_cons.mp hx with rfl | hx
          · exact hproper
          · exact hall x hx
        · intro x
          rw [hmem, AList.mem_insert, List.keys_cons, List.mem_cons]
          tauto

/-- The service stands at its position, and has never given out anything else. -/
structure Inv (service : Name) (s : State) : Prop where
  position : s.position ≤ s.history.length
  direct : ∀ evs ∈ s.history, ∀ ev ∈ evs, Direct service ev
  stands : s.etcdRevision.isSome → Stands s.mapNode (keysAt s.history s.position)
  watching : s.watching = true → s.etcdRevision.isSome
  exact : ∀ g ∈ s.given, g.revision ≤ s.position ∧
    ∀ node, node ∈ g.nodes ↔ HoldsAt s.history g.revision node
  ordered : s.given.Pairwise fun g g' => g.revision ≤ g'.revision

theorem mem_getNodes (m : Nodes) : node ∈ getNodes m ↔ node ∈ m := by
  rw [getNodes, List.mem_insertionSort, AList.mem_keys]

theorem Inv.give (h : Inv service s) (hstands : Stands s.mapNode (keysAt s.history s.position)) :
    Inv service s.give := by
  refine { h with exact := ?_, ordered := ?_ }
  · intro g hg
    rcases List.mem_append.mp hg with hg | hg
    · exact h.exact g hg
    · cases List.mem_singleton.mp hg
      exact ⟨le_refl _, fun node => (mem_getNodes _).trans (hstands node)⟩
  · refine List.pairwise_append.mpr ⟨h.ordered, List.pairwise_singleton _ _, ?_⟩
    intro g hg g' hg'
    cases List.mem_singleton.mp hg'
    exact (h.exact g hg).1

theorem HoldsAt.append_iff (later : List (List Event)) (h : r ≤ history.length) :
    HoldsAt (history ++ later) r node ↔ HoldsAt history r node := by
  rw [HoldsAt, HoldsAt, keysAt_append later h]

theorem Inv.change (h : Inv service s) (hdirect : ∀ ev ∈ evs, Direct service ev) :
    Inv service { s with history := s.history ++ [evs] } := by
  refine ⟨?_, ?_, ?_, h.watching, ?_, h.ordered⟩
  · have hlen := h.position
    simp only [List.length_append]
    omega
  · intro evs' hevs
    rcases List.mem_append.mp hevs with hevs | hevs
    · exact h.direct evs' hevs
    · cases List.mem_singleton.mp hevs
      exact hdirect
  · intro hq
    rw [keysAt_append _ h.position]
    exact h.stands hq
  · intro g hg
    obtain ⟨hle, hnodes⟩ := h.exact g hg
    exact ⟨hle, fun node => (hnodes node).trans
      (HoldsAt.append_iff [evs] (hle.trans h.position)).symm⟩

theorem check_raised (h : check known node info = .raised) : info = none := by
  cases info with
  | none => rfl
  | some rev =>
    rw [check] at h
    split at h
    · cases h
    · split at h
      · cases h
      · cases h

theorem fill_done {order : List Name} (h : fill s.known found ∅ order = (.done, m))
    (hperm : order.Perm found.keys) : ∀ node, node ∈ m ↔ node ∈ found := by
  obtain ⟨hout, hmem⟩ := fill_spec s found order ∅
  rw [h] at hout hmem
  have hall : order.takeWhile (acceptable s found) = order := by
    have hsplit := List.takeWhile_append_dropWhile (p := acceptable s found) (l := order)
    cases hd : order.dropWhile (acceptable s found) with
    | nil => rwa [hd, List.append_nil] at hsplit
    | cons node rest =>
      have hacc := List.head_dropWhile_not (acceptable s found) (l := order) (by simp [hd])
      simp only [hd, List.head_cons] at hacc
      rw [hd] at hout
      simp [acceptable, ← hout] at hacc
  intro node
  rw [hmem, hall, hperm.mem_iff, ← AList.mem_keys]
  simp

theorem Inv.firstQuery {order : List Name} (h : Inv service s) (hle : s.position ≤ r)
    (hlen : r ≤ s.history.length)
    (hfound : etcdQueryService service (keysAt s.history r) = found')
    (hperm : ∀ mapNode ∈ found', order.Perm mapNode.keys)
    (hread : Readable (keysAt s.history r))
    (hok : s.etcdRevision.isSome → ∀ mapNode ∈ found', Spared s order mapNode) :
    Inv service (s.firstQuery found' r order) := by
  unfold State.firstQuery
  split
  · exact h
  · next found =>
    obtain ⟨hproper, hkeys⟩ := queryFrom_spec _ (fun kv hkv node hr =>
      direct_keysAt h.direct (List.mem_keys_of_mem hkv) hr) hread hfound
    split
    · next m hfill =>
      have hmem := fill_done hfill (hperm found rfl)
      have hstands : Stands m (keysAt s.history r) := by
        intro node
        rw [hmem, hkeys]
        constructor
        · rintro (hn | hn)
          · exact absurd hn (AList.notMem_empty node)
          · exact ⟨hproper node hn, hn⟩
        · rintro ⟨_, hn⟩
          exact .inr hn
      refine Inv.give (s := { s with
        mapNode := m, position := r, watching := true, etcdRevision := some r }) ?_ hstands
      refine ⟨hlen, h.direct, fun _ => hstands, fun _ => rfl, ?_, h.ordered⟩
      intro g hg
      exact ⟨(h.exact g hg).1.trans hle, (h.exact g hg).2⟩
    · exact h
    · next m hfill =>
      refine { h with stands := ?_ }
      intro hq
      have hspared := hok hq found rfl
      obtain ⟨hout, hmem⟩ := fill_spec s found order ∅
      rw [hfill] at hout hmem
      rw [Spared] at hspared
      split at hout
      · cases hout
      · next node rest hd =>
        rw [hd] at hspared
        obtain ⟨hsub, hsup⟩ := hspared (check_raised hout.symm)
        intro x
        rw [← h.stands hq x, hmem]
        constructor
        · rintro (hx | hx)
          · exact absurd hx (AList.notMem_empty x)
          · exact AList.mem_keys.mp (hsub hx)
        · intro hx
          exact .inr (hsup (AList.mem_keys.mpr hx))

theorem takeWhile_flatten (p : Event → Bool) (revs : List (List Event)) :
    revs.flatten.takeWhile p = (revs.takeWhile fun evs => evs.all p).flatten ++
      ((revs[(revs.takeWhile fun evs => evs.all p).length]?).getD []).takeWhile p := by
  induction revs with
  | nil => rfl
  | cons evs revs ih =>
    by_cases hall : evs.all p = true
    · rw [List.flatten_cons, List.takeWhile_append_of_pos (List.all_eq_true.mp hall), ih]
      simp [hall]
    · have hlen : (evs.takeWhile p).length ≠ evs.length := by
        intro hlen
        have he := (List.takeWhile_prefix p).eq_of_length hlen
        have hpre : (evs.takeWhile p).all p = true := List.all_takeWhile
        rw [he] at hpre
        exact hall hpre
      rw [List.flatten_cons, List.takeWhile_append, if_neg hlen]
      simp [hall]

theorem Inv.watchBatch (h : Inv service s) (hw : s.watching = true)
    (hok : Unbroken service s n) (hlen : s.position + n ≤ s.history.length) (revision : Nat) :
    Inv service (s.watchBatch service n revision) := by
  let j := s.whole service n
  have hup : ∀ evs ∈ s.upcoming n, evs ∈ s.history := fun evs hevs =>
    List.mem_of_mem_drop (List.mem_of_mem_take hevs)
  have hdirect : ∀ ev ∈ (s.upcoming n).flatten, Direct service ev := by
    intro ev hev
    obtain ⟨evs, hevs, hin⟩ := List.mem_flatten.mp hev
    exact h.direct evs (hup evs hevs) ev hin
  have hwhole : (s.upcoming n).takeWhile (fun evs => evs.all (State.accepts service s.known)) =
      (s.history.drop s.position).take j :=
    List.prefix_iff_eq_take.mp ((List.takeWhile_prefix _).trans (List.take_prefix _ _))
  have hj : j ≤ n := by
    have hle := (List.takeWhile_prefix (fun evs => evs.all (State.accepts service s.known))
      (l := s.upcoming n)).length_le
    have hn : (s.upcoming n).length ≤ n := List.length_take_le _ _
    exact hle.trans hn
  have hspec : Stands (watchEvents service s.known s.mapNode (s.upcoming n).flatten).2
      (((s.upcoming n).flatten.takeWhile (State.accepts service s.known)).foldl Event.change
        (keysAt s.history s.position)) :=
    (watchEvents_spec hdirect (h.stands (h.watching hw))).2
  have hstands : Stands (watchEvents service s.known s.mapNode (s.upcoming n).flatten).2
      (keysAt s.history (s.position + j)) := by
    have hsplit : (s.upcoming n).flatten.takeWhile (State.accepts service s.known) =
        ((s.history.drop s.position).take j).flatten ++
          (((s.upcoming n)[j]?).getD []).takeWhile (State.accepts service s.known) := by
      rw [takeWhile_flatten, ← hwhole]
      rfl
    rw [hsplit, List.foldl_append, ← keysAt_add] at hspec
    cases hnext : (s.upcoming n)[j]? with
    | none =>
      rw [hnext] at hspec
      exact hspec
    | some evs =>
      have hnext' : (s.upcoming n)[s.whole service n]? = some evs := hnext
      rw [hnext] at hspec
      simp only [Unbroken, hnext'] at hok
      obtain ⟨hsub, hsup⟩ := hok
      intro x
      rw [hspec x]
      constructor
      · rintro ⟨hx, hmem⟩
        exact ⟨hx, AList.mem_keys.mpr (hsub (AList.mem_keys.mp hmem))⟩
      · rintro ⟨hx, hmem⟩
        exact ⟨hx, AList.mem_keys.mpr (hsup (AList.mem_keys.mp hmem))⟩
  have hpos : s.position + j ≤ s.history.length := by omega
  have hinv : ∀ e : Option Nat, e.isSome → Inv service { s with
      mapNode := (watchEvents service s.known s.mapNode (s.upcoming n).flatten).2
      position := s.position + j
      etcdRevision := e } := by
    intro e he
    refine ⟨hpos, h.direct, fun _ => hstands, fun _ => he, ?_, h.ordered⟩
    intro g hg
    exact ⟨(h.exact g hg).1.trans (Nat.le_add_right _ _), (h.exact g hg).2⟩
  unfold State.watchBatch
  simp only
  split
  · exact (hinv (some revision) rfl).give hstands
  · exact { hinv s.etcdRevision (h.watching hw) with watching := by rintro ⟨⟩ }

theorem Inv.step (h : Inv service s) (hok : Careful service s a)
    (ht : (system service).step s a = some t) : Inv service t := by
  cases a with
  | change evs =>
    cases ht
    exact h.change hok
  | nodes known =>
    cases ht
    exact { h with }
  | query r order =>
    obtain ⟨⟨_, hle, hlen, hperm⟩, he⟩ := Option.ite_none_right_eq_some.mp ht
    cases he
    exact h.firstQuery hle hlen rfl hperm hok.1 hok.2
  | batch n revision =>
    obtain ⟨⟨hw, hlen⟩, he⟩ := Option.ite_none_right_eq_some.mp ht
    cases he
    exact h.watchBatch hw hok hlen revision
  | interrupt =>
    cases ht
    exact { h with watching := by rintro ⟨⟩ }
  | ask =>
    obtain ⟨hq, he⟩ := Option.ite_none_right_eq_some.mp ht
    cases he
    exact h.give (h.stands hq)

theorem Inv.whole (h : Inv service s) : s.Whole := by
  constructor
  · intro g hg
    obtain ⟨hle, hnodes⟩ := h.exact g hg
    exact ⟨hle.trans h.position, hnodes⟩
  · refine h.ordered.imp_of_mem ?_
    intro g g' hg hg' hle
    refine ⟨hle, fun node hin hnot => ?_⟩
    exact registered_between hle (mt ((h.exact g hg).2 node).mpr hnot)
      (((h.exact g' hg').2 node).mp hin)

theorem membership_whole (h : (system service).Reaches (Careful service) s) : s.Whole := by
  have hinv : Inv service s := by
    refine h.invariant (I := Inv service) ?_ fun _ _ _ hi hok ht => hi.step hok ht
    intro s hs
    rw [hs]
    refine ⟨le_refl _, ?_, ?_, ?_, ?_, List.Pairwise.nil⟩
    · rintro evs ⟨⟩
    · rintro ⟨⟩
    · rintro ⟨⟩
    · rintro g ⟨⟩
  exact hinv.whole

def nodeA : Name := "a".toList

def nodeB : Name := "b".toList

/-- Every node is known and has registered before. -/
def allKnown : Name → Option Nat := fun _ => some 9

/-- Two nodes register, the service learns of both, and one leaves. -/
def registered : List Action :=
  [.nodes allKnown, .change [.put nodeA (.entry (some 1))], .query 1 [nodeA],
    .change [.put nodeB (.entry (some 2))],
    .batch 1 2, .ask, .change [.delete nodeA], .batch 1 3, .ask]

theorem membership_whole_registered :
    ((system "role".toList).run (Careful "role".toList) {} registered (by decide +kernel)).Whole :=
  membership_whole ((system "role".toList).run_reaches _ registered rfl (by decide +kernel))

/-- An entry without a revision is written, and a read meets it when the watch has ended. -/
def unregistered : List Action :=
  [.nodes allKnown, .change [.put nodeA (.entry (some 1))], .change [.put nodeB (.entry (some 2))],
    .query 2 [nodeA, nodeB], .change [.put "c".toList (.entry none)], .interrupt,
    .query 3 [nodeB, "c".toList, nodeA], .ask]

/-- The changes that `unregistered` makes. -/
def entries : List (List Event) :=
  [[.put nodeA (.entry (some 1))], [.put nodeB (.entry (some 2))], [.put "c".toList (.entry none)]]

theorem not_alone (r : Nat) (hb : nodeB ∈ keysAt entries r) : nodeA ∈ keysAt entries r := by
  rcases Nat.lt_or_ge r 3 with hr | hr
  · revert hb
    interval_cases r <;> decide +kernel
  · rw [keysAt, List.take_of_length_le hr]
    decide +kernel

theorem half_list_given : ¬ ∀ s, (system "role".toList).Reaches anyStep s →
    ∀ g ∈ s.given, ∃ r, ∀ node, node ∈ g.nodes ↔ HoldsAt s.history r node := by
  intro h
  have hreach := (system "role".toList).run_reaches anyStep unregistered rfl (by decide +kernel)
  obtain ⟨r, hr⟩ := h _ hreach ⟨2, [nodeB]⟩ (by decide +kernel)
  have hhist : ((system "role".toList).run anyStep {} unregistered (by decide +kernel)).history =
      entries := by decide +kernel
  rw [hhist] at hr
  have hb := (hr nodeB).mp (List.mem_singleton_self nodeB)
  have ha := (hr nodeA).mpr ⟨⟨by decide +kernel, by decide +kernel⟩, not_alone r hb.2⟩
  exact absurd ha (by decide +kernel)

end ServiceObj
end Skyext
