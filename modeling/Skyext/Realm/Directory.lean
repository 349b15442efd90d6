import Mathlib.Data.List.AList
import Mathlib.Data.List.Induction
import Mathlib.Logic.Function.Basic

namespace Skyext
set_option autoImplicit true

namespace Realm

abbrev Key := List Char

inductive Kind
  | server
  | game
  | zone
  | gate
  deriving DecidableEq

def Kind.word : Kind → List Char
  | .server => "server".toList
  | .game => "game".toList
  | .zone => "zone".toList
  | .gate => "gate".toList

def keyPrefix : Key := "/skyext/realm/".toList

def kinds (word : List Char) : Option Kind :=
  [Kind.server, .game, .zone, .gate].find? fun kind => kind.word = word

/-- The pattern of `parse_key` has the prefix, letters, a slash and at least one more character. -/
def parseKey (key : Key) : Option (Kind × List Char) :=
  match key.dropPrefix? keyPrefix with
  | none => none
  | some rest =>
    match kinds (rest.takeWhile Char.isAlpha), rest.dropWhile Char.isAlpha with
    | some kind, '/' :: c :: name => some (kind, c :: name)
    | _, _ => none

inductive Value (α : Type)
  | table (info : α)
  | other (text : String)
  deriving DecidableEq

structure Dir (α : Type) where
  revision : Nat
  entries : Kind → List Char → Option α

def emptyDir : Dir α := ⟨0, fun _ _ => none⟩

def Dir.set (dir : Dir α) (kind : Kind) (name : List Char) (info : Option α) : Dir α :=
  { dir with
    entries := Function.update dir.entries kind (Function.update (dir.entries kind) name info) }

abbrev Store (α : Type) := AList fun _ : Key => Value α

def Dir.loadKv (dir : Dir α) (kv : Σ _ : Key, Value α) : Dir α :=
  match parseKey kv.1, kv.2 with
  | some (kind, name), .table info => dir.set kind name (some info)
  | _, _ => dir

def loadAll (revision : Nat) (kvs : List (Σ _ : Key, Value α)) : Dir α :=
  kvs.foldl Dir.loadKv { emptyDir with revision }

inductive Event (α : Type)
  | put (key : Key) (value : Value α)
  | delete (key : Key)
  deriving DecidableEq

def Event.key : Event α → Key
  | .put key _ => key
  | .delete key => key

@[simp] theorem Event.key_put (key : Key) (value : Value α) : (Event.put key value).key = key := rfl
@[simp] theorem Event.key_delete (key : Key) : (Event.delete key : Event α).key = key := rfl

def Dir.applyEvent (dir : Dir α) (ev : Event α) : Dir α :=
  match parseKey ev.key with
  | none => dir
  | some (kind, name) =>
    match ev with
    | .delete _ => dir.set kind name none
    | .put _ (.table info) => dir.set kind name (some info)
    | .put _ (.other _) => dir

def Dir.applyEvents (dir : Dir α) (events : List (Event α)) : Dir α :=
  events.foldl Dir.applyEvent dir

/-- A response of the watch; its header may be without a revision. -/
structure Batch (α : Type) where
  revision : Option Nat
  events : List (Event α)

def Dir.watchBatch (dir : Dir α) (ret : Batch α) : Dir α :=
  if ret.events.isEmpty then dir
  else { dir.applyEvents ret.events with revision := ret.revision.getD dir.revision }

/-- The client's `apply`, whose listeners get the directory it accepts. -/
def apply (gDir : Option (Dir α)) (dir : Dir α) : Option (Dir α) :=
  match gDir with
  | none => some dir
  | some old => if dir.revision < old.revision then some old else some dir

def client (received : List (Dir α)) : Option (Dir α) := received.foldl apply none

def Event.store (store : Store α) : Event α → Store α
  | .put key value => store.insert key value
  | .delete key => store.erase key

def after (store : Store α) (events : List (Event α)) : Store α := events.foldl Event.store store

def Event.value : Event α → Option (Value α)
  | .put _ value => some value
  | .delete _ => none

@[simp] theorem Event.value_put (key : Key) (value : Value α) :
    (Event.put key value).value = some value := rfl
@[simp] theorem Event.value_delete (key : Key) : (Event.delete key : Event α).value = none := rfl

/-- What the directory was loaded with for a key and what has been written to it since. -/
def writes (store : Store α) (events : List (Event α)) (key : Key) : List (Option (Value α)) :=
  store.lookup key :: (events.filter fun ev => ev.key = key).map Event.value

/-- Nothing but values that are no tables has been written since a table was. -/
def Remains (ws : List (Option (Value α))) : Prop :=
  ∃ pre info post, ws = pre ++ some (.table info) :: post ∧
    ∀ w ∈ post, ∃ text, w = some (.other text)

/-- The last write is of a value that is no table, over a table that remains. -/
def Overwritten (ws : List (Option (Value α))) : Prop :=
  ∃ old text, ws = old ++ [some (.other text)] ∧ Remains old

def keyOf (kind : Kind) (name : List Char) : Key := keyPrefix ++ (kind.word ++ '/' :: name)

theorem kinds_word (kind : Kind) : kinds kind.word = some kind := by
  cases kind <;> rfl

theorem kinds_eq_some (h : kinds word = some kind) : kind.word = word := by
  rw [kinds] at h
  simpa using List.find?_some h

theorem word_span (kind : Kind) (name : List Char) :
    (kind.word ++ '/' :: name).takeWhile Char.isAlpha = kind.word ∧
      (kind.word ++ '/' :: name).dropWhile Char.isAlpha = '/' :: name := by
  cases kind <;> exact ⟨rfl, rfl⟩

theorem parseKey_eq_some :
    parseKey key = some (kind, name) ↔ key = keyOf kind name ∧ name ≠ [] := by
  constructor
  · intro h
    rw [parseKey] at h
    split at h
    · cases h
    · next rest hrest =>
      obtain ⟨p, rfl, hp⟩ := List.dropPrefix?_eq_some_iff.mp hrest
      split at h
      · next k c name' hk hd =>
        cases h
        refine ⟨?_, List.cons_ne_nil _ _⟩
        rw [keyOf, kinds_eq_some hk, ← hd, List.takeWhile_append_dropWhile, eq_of_beq hp]
      · cases h
  · rintro ⟨rfl, hne⟩
    obtain ⟨c, name, rfl⟩ := List.exists_cons_of_ne_nil hne
    have hdrop : (keyOf kind (c :: name)).dropPrefix? keyPrefix =
        some (kind.word ++ '/' :: c :: name) :=
      List.dropPrefix?_eq_some_iff.mpr ⟨keyPrefix, rfl, beq_self_eq_true _⟩
    obtain ⟨htake, hrest⟩ := word_span kind (c :: name)
    simp only [parseKey, hdrop, htake, hrest, kinds_word]

theorem Dir.set_entries (dir : Dir α) (info : Option α) (kind kind' : Kind)
    (name name' : List Char) :
    (dir.set kind name info).entries kind' name' =
      if kind' = kind ∧ name' = name then info else dir.entries kind' name' := by
  by_cases hk : kind' = kind
  · subst hk
    by_cases hn : name' = name
    · subst hn
      simp [Dir.set]
    · simp [Dir.set, hn]
  · simp [Dir.set, hk]

theorem parseKey_inj (h : parseKey key = some entry) : parseKey key' = some entry ↔ key' = key := by
  constructor
  · intro h'
    rw [(parseKey_eq_some.mp h).1, (parseKey_eq_some.mp h').1]
  · rintro rfl
    exact h

def written (old : Option α) : Option (Value α) → Option α
  | none => none
  | some (.table info) => some info
  | some (.other _) => old

theorem applyEvent_entries (dir : Dir α) (ev : Event α) (kind : Kind) (name : List Char) :
    (dir.applyEvent ev).entries kind name =
      if parseKey ev.key = some (kind, name) then written (dir.entries kind name) ev.value
      else dir.entries kind name := by
  rw [Dir.applyEvent]
  split
  · next hnone => simp [hnone]
  · next k n hsome =>
    have hiff : some (k, n) = some (kind, name) ↔ kind = k ∧ name = n := by
      rw [Option.some.injEq, Prod.mk.injEq, eq_comm, @eq_comm _ n]
    simp only [hsome, hiff]
    cases ev with
    | delete _ => exact dir.set_entries none k kind n name
    | put _ value =>
      cases value with
      | table info => exact dir.set_entries (some info) k kind n name
      | other _ => exact (ite_self _).symm

theorem applyEvents_entries (dir : Dir α) (events : List (Event α)) (kind : Kind)
    (name : List Char) :
    (dir.applyEvents events).entries kind name =
      ((events.filter fun ev => parseKey ev.key = some (kind, name)).map Event.value).foldl written
        (dir.entries kind name) := by
  induction events generalizing dir with
  | nil => rfl
  | cons ev events ih =>
    rw [Dir.applyEvents, List.foldl_cons, ← Dir.applyEvents, ih, applyEvent_entries]
    by_cases hkey : parseKey ev.key = some (kind, name)
    · simp [hkey]
    · simp [hkey]

/-- A scan treats what it finds as it was just put. -/
theorem loadAll_eq (revision : Nat) (kvs : List (Σ _ : Key, Value α)) :
    loadAll revision kvs =
      Dir.applyEvents { emptyDir with revision } (kvs.map fun kv => .put kv.1 kv.2) := by
  rw [loadAll, Dir.applyEvents, List.foldl_map]
  congr 1
  funext dir kv
  rw [Dir.loadKv, Dir.applyEvent, Event.key]
  cases parseKey kv.1 with
  | none => rfl
  | some entry =>
    obtain ⟨_, value⟩ := kv
    cases value <;> rfl

theorem puts_of_key {kvs : List (Σ _ : Key, Value α)} (hnodup : kvs.NodupKeys) (key : Key) :
    ((kvs.map fun kv => Event.put kv.1 kv.2).filter fun ev => ev.key = key).map Event.value =
      (kvs.dlookup key).toList.map some := by
  induction kvs with
  | nil => rfl
  | cons kv kvs ih =>
    obtain ⟨hnot, htail⟩ := List.nodupKeys_cons.mp hnodup
    by_cases hkey : kv.1 = key
    · subst hkey
      have hnone := List.dlookup_eq_none.mpr hnot
      have hself : (kv :: kvs).dlookup kv.1 = some kv.2 := List.dlookup_cons_eq kvs kv.1 kv.2
      simp [hself, ih htail, hnone]
    · simp [hkey, ih htail, List.dlookup_cons_ne _ _ (Ne.symm hkey)]

theorem loadAll_entries (store : Store α) (h : parseKey key = some (kind, name)) :
    (loadAll revision store.entries).entries kind name = written none (store.lookup key) := by
  have hputs := puts_of_key store.nodupKeys key
  rw [loadAll_eq, applyEvents_entries]
  simp only [parseKey_inj h, hputs, AList.lookup]
  cases store.entries.dlookup key <;> rfl

theorem Event.store_lookup (store : Store α) (ev : Event α) (key : Key) :
    (ev.store store).lookup key = if ev.key = key then ev.value else store.lookup key := by
  cases ev with
  | put k value =>
    by_cases hk : k = key
    · subst hk
      simp [Event.store]
    · simp [Event.store, hk, AList.lookup_insert_ne (Ne.symm hk)]
  | delete k =>
    by_cases hk : k = key
    · subst hk
      simp [Event.store]
    · simp [Event.store, hk, AList.lookup_erase_ne (Ne.symm hk)]

/-- The key has the last value that was written to it. -/
theorem after_lookup (store : Store α) (events : List (Event α)) (key : Key) :
    (writes store events key).getLast? = some ((after store events).lookup key) := by
  induction events generalizing store with
  | nil => rfl
  | cons ev events ih =>
    rw [after, List.foldl_cons, ← after, ← ih, writes, writes, Event.store_lookup]
    by_cases hkey : ev.key = key
    · simp [hkey]
    · simp [hkey]

theorem remains_snoc (ws : List (Option (Value α))) (w : Option (Value α)) :
    Remains (ws ++ [w]) ↔
      (∃ info, w = some (.table info)) ∨ (∃ text, w = some (.other text)) ∧ Remains ws := by
  constructor
  · rintro ⟨pre, info, post, he, hpost⟩
    rcases List.eq_nil_or_concat post with rfl | ⟨post, last, rfl⟩
    · have hw := (List.append_inj' he rfl).2
      exact .inl ⟨info, List.singleton_inj.mp hw⟩
    · rw [List.concat_eq_append] at he hpost
      have hsplit : ws ++ [w] = (pre ++ some (.table info) :: post) ++ [last] := by simpa using he
      obtain ⟨hws, hw⟩ := List.append_inj' hsplit rfl
      obtain rfl := List.singleton_inj.mp hw
      refine .inr ⟨hpost _ (by simp), pre, info, post, hws, ?_⟩
      intro v hv
      exact hpost v (List.mem_append_left _ hv)
  · rintro (⟨info, rfl⟩ | ⟨⟨text, rfl⟩, pre, info, post, rfl, hpost⟩)
    · exact ⟨ws, info, [], rfl, by simp⟩
    · refine ⟨pre, info, post ++ [some (.other text)], by simp, ?_⟩
      intro v hv
      rcases List.mem_append.mp hv with hv | hv
      · exact hpost v hv
      · exact ⟨text, List.mem_singleton.mp hv⟩

theorem overwritten_snoc (ws : List (Option (Value α))) (w : Option (Value α)) :
    Overwritten (ws ++ [w]) ↔ (∃ text, w = some (.other text)) ∧ Remains ws := by
  constructor
  · rintro ⟨old, text, he, hold⟩
    obtain ⟨rfl, hw⟩ := List.append_inj' he rfl
    exact ⟨⟨text, List.singleton_inj.mp hw⟩, hold⟩
  · rintro ⟨⟨text, rfl⟩, hws⟩
    exact ⟨ws, text, rfl, hws⟩

theorem foldl_written (ws : List (Option (Value α))) :
    ws.foldl written none = none ↔ ¬ Remains ws := by
  induction ws using List.reverseRecOn with
  | nil =>
    simp [Remains]
  | append_singleton ws w ih =>
    rw [List.foldl_append, List.foldl_cons, List.foldl_nil, remains_snoc]
    cases w with
    | none => simp [written]
    | some value =>
      cases value with
      | table info => simp [written]
      | other text => simp [written, ih]

/-- The entry is the one of the last write, unless that left a table in its place. -/
theorem written_last (ws : List (Option (Value α))) (w : Option (Value α)) :
    (ws ++ [w]).foldl written none = written none w ↔ ¬ Overwritten (ws ++ [w]) := by
  rw [List.foldl_append, List.foldl_cons, List.foldl_nil, overwritten_snoc]
  cases w with
  | none => simp [written]
  | some value =>
    cases value with
    | table info => simp [written]
    | other text => simp [written, foldl_written]

theorem applyEvents_congr {dir dir' : Dir α} (h : dir.entries = dir'.entries)
    (events : List (Event α)) :
    (dir.applyEvents events).entries = (dir'.applyEvents events).entries := by
  funext kind name
  rw [applyEvents_entries, applyEvents_entries, h]

theorem foldl_watchBatch (dir : Dir α) (batches : List (Batch α)) :
    (batches.foldl Dir.watchBatch dir).entries =
      (dir.applyEvents (batches.flatMap Batch.events)).entries := by
  induction batches generalizing dir with
  | nil => rfl
  | cons ret batches ih =>
    have hret : (dir.watchBatch ret).entries = (dir.applyEvents ret.events).entries := by
      rw [Dir.watchBatch]
      split
      · next hempty =>
        rw [List.isEmpty_iff.mp hempty]
        rfl
      · rfl
    rw [List.foldl_cons, ih, applyEvents_congr hret, List.flatMap_cons]
    simp only [Dir.applyEvents, List.foldl_append]

/-- The incremental path and a scan agree on a key unless a value that is no table came over one. -/
theorem entries_agree (store : Store α) (events : List (Event α))
    (h : parseKey key = some (kind, name)) :
    ((loadAll r₀ store.entries).applyEvents events).entries kind name =
        (loadAll r (after store events).entries).entries kind name ↔
      ¬ Overwritten (writes store events key) := by
  obtain ⟨old, hlast⟩ := List.getLast?_eq_some_iff.mp (after_lookup store events key)
  have hservice : ((loadAll r₀ store.entries).applyEvents events).entries kind name =
      (writes store events key).foldl written none := by
    rw [applyEvents_entries, loadAll_entries store h]
    simp only [parseKey_inj h]
    rfl
  rw [hservice, loadAll_entries _ h, hlast]
  exact written_last old _

theorem applyEvents_nokey (dir : Dir α) (events : List (Event α))
    (h : ∀ key, parseKey key ≠ some (kind, name)) :
    (dir.applyEvents events).entries kind name = dir.entries kind name := by
  simp [applyEvents_entries, h]

theorem client_newest (received : List (Dir α)) :
    (∀ dir ∈ received, ∃ g ∈ client received, dir.revision ≤ g.revision) ∧
      ∀ g ∈ client received, g ∈ received := by
  induction received using List.reverseRecOn with
  | nil =>
    refine ⟨?_, ?_⟩
    · rintro dir ⟨⟩
    · rintro g ⟨⟩
  | append_singleton received dir ih =>
    obtain ⟨hnew, hin⟩ := ih
    have hstep : client (received ++ [dir]) = apply (client received) dir := by
      rw [client, List.foldl_append]
      rfl
    rw [hstep]
    cases hc : client received with
    | none =>
      refine ⟨?_, ?_⟩
      · intro d hd
        rcases List.mem_append.mp hd with hd | hd
        · obtain ⟨g, hg, _⟩ := hnew d hd
          cases hc.symm.trans hg
        · exact ⟨dir, rfl, (List.mem_singleton.mp hd) ▸ le_refl _⟩
      · rintro g ⟨⟩
        exact List.mem_append_right _ (List.mem_singleton_self _)
    | some old =>
      have hold : ∀ d ∈ received, d.revision ≤ old.revision := by
        intro d hd
        obtain ⟨g, hg, hle⟩ := hnew d hd
        cases hc.symm.trans hg
        exact hle
      rw [apply]
      split
      · next hlt =>
        refine ⟨?_, ?_⟩
        · intro d hd
          rcases List.mem_append.mp hd with hd | hd
          · exact ⟨old, rfl, hold d hd⟩
          · exact ⟨old, rfl, (List.mem_singleton.mp hd) ▸ Nat.le_of_lt hlt⟩
        · rintro g ⟨⟩
          exact List.mem_append_left _ (hin old hc)
      · next hle =>
        refine ⟨?_, ?_⟩
        · intro d hd
          rcases List.mem_append.mp hd with hd | hd
          · exact ⟨dir, rfl, Nat.le_trans (hold d hd) (Nat.le_of_not_lt hle)⟩
          · exact ⟨dir, rfl, (List.mem_singleton.mp hd) ▸ le_refl _⟩
        · rintro g ⟨⟩
          exact List.mem_append_right _ (List.mem_singleton_self _)

/-- The directory after any events is the one a scan builds exactly when no known key had a value
that is no table put over a table; and a client has the newest directory it has received. -/
theorem directory_agrees (store : Store α) (r₀ r : Nat) (batches : List (Batch α)) :
    ((batches.foldl Dir.watchBatch (loadAll r₀ store.entries)).entries =
        (loadAll r (after store (batches.flatMap Batch.events)).entries).entries ↔
      ∀ key, (parseKey key).isSome →
        ¬ Overwritten (writes store (batches.flatMap Batch.events) key)) ∧
    ∀ received : List (Dir α),
      (∀ dir ∈ received, ∃ g ∈ client received, dir.revision ≤ g.revision) ∧
      (∀ g ∈ client received, g ∈ received) ∧
      ∀ more, ∀ g ∈ client received,
        ∃ g' ∈ client (received ++ more), g.revision ≤ g'.revision := by
  constructor
  · rw [foldl_watchBatch]
    constructor
    · intro he key hkey
      obtain ⟨⟨kind, name⟩, hentry⟩ := Option.isSome_iff_exists.mp hkey
      exact (entries_agree store _ hentry).mp (congrFun (congrFun he kind) name)
    · intro hok
      funext kind name
      by_cases hkey : ∃ key, parseKey key = some (kind, name)
      · obtain ⟨key, hentry⟩ := hkey
        exact (entries_agree store _ hentry).mpr (hok key (by rw [hentry]; rfl))
      · have hno : ∀ key, parseKey key ≠ some (kind, name) := fun key h => hkey ⟨key, h⟩
        rw [applyEvents_nokey _ _ hno, loadAll_eq, loadAll_eq, applyEvents_nokey _ _ hno,
          applyEvents_nokey _ _ hno]
  · intro received
    obtain ⟨hnew, hin⟩ := client_newest received
    refine ⟨hnew, hin, ?_⟩
    intro more g hg
    exact (client_newest (received ++ more)).1 g (List.mem_append_left _ (hin g hg))

def zoneKey : Key := "/skyext/realm/zone/zone1".toList

theorem directory_differs : ¬ ∀ (store : Store Nat) (r₀ r : Nat) (batches : List (Batch Nat)),
    (batches.foldl Dir.watchBatch (loadAll r₀ store.entries)).entries =
      (loadAll r (after store (batches.flatMap Batch.events)).entries).entries := by
  intro h
  have he := h (AList.singleton zoneKey (.table 0)) 10 11 [⟨some 11, [.put zoneKey (.other "1")]⟩]
  have hz := congrFun (congrFun he .zone) "zone1".toList
  exact absurd hz (by decide +kernel)

end Realm
end Skyext
