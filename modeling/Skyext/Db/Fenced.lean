import Skyext.Db.Dbmgr

namespace Skyext
set_option autoImplicit true

open Machine

inductive DbRequest.Effect (apply : U → F → F) (docs : List (Document F U)) :
    DbRequest F U → List (Document F U) → Prop
  | none (request) : Effect apply docs request docs
  | claim : docs = [d] → d.claimable fence = true → Effect apply docs (.claim fence) [d.claim fence]
  | create (c fence initial) : docs = [] →
    Effect apply docs (.create c fence initial) [.first initial 0 (some fence)]
  | update : docs = [d] → d.updatable w.fence w.version = true →
    Effect apply docs (.update w) [d.write apply w]

variable {orm : Orm F U D E} {apply : U → F → F} {docs docs' : List (Document F U)}
  {requests requests' : List (DbRequest F U × Option (DbReply F U))} {d : Document F U}
  {s t : Dbmgr F U D} {e : Entry F U D} {x : DbNode F U D} {w : Write U}

/-- The key has at most one document, and what its record says is so. -/
def OneDocument (apply : U → F → F) (docs : List (Document F U)) : Prop :=
  docs = [] ∨ ∃ d, docs = [d] ∧ d.Ok apply

theorem DbRequest.execute_effect (h : OneDocument apply docs) (request : DbRequest F U) :
    request.Effect apply docs (request.execute apply docs).1 := by
  cases request with
  | claim fence =>
    rcases h with rfl | ⟨d, rfl, _⟩
    · exact .none _
    · simp only [execute, modifyFirst]
      split
      · next hc => exact .claim rfl hc
      · exact .none _
  | create c fence initial =>
    rcases h with rfl | ⟨d, rfl, _⟩
    · exact .create c fence initial rfl
    · exact .none _
  | find => exact .none _
  | update w =>
    rcases h with rfl | ⟨d, rfl, _⟩
    · exact .none _
    · simp only [execute, modifyFirst]
      split
      · next hu => exact .update rfl hu
      · exact .none _

/-- A document found at some time, of which the one of the key is a later state. -/
def Known (apply : U → F → F) (docs : List (Document F U)) (d : Document F U) : Prop :=
  d.Ok apply ∧ ∃ e, docs = [e] ∧ d.Grows e

/-- A version that is the one of a document after so many updates. -/
def Counts (docs : List (Document F U)) (version seen : Nat) : Prop :=
  ∃ d, docs = [d] ∧ version = d.originVersion + seen

def Evolves (docs docs' : List (Document F U)) : Prop :=
  ∀ d, docs = [d] → ∃ e, docs' = [e] ∧ d.Grows e

theorem Known.mono (h : Known apply docs d) (he : Evolves docs docs') : Known apply docs' d := by
  obtain ⟨hok, e, hd, hg⟩ := h
  obtain ⟨f, hf, hg'⟩ := he e hd
  exact ⟨hok, f, hf, hg.trans hg'⟩

theorem Counts.mono (h : Counts docs version seen) (he : Evolves docs docs') :
    Counts docs' version seen := by
  obtain ⟨d, hd, hv⟩ := h
  obtain ⟨e, he, hg⟩ := he d hd
  exact ⟨e, he, hg.originVersion ▸ hv⟩

theorem DbRequest.Effect.evolves {request : DbRequest F U}
    (h : request.Effect apply docs docs') : Evolves docs docs' := by
  intro d hd
  cases h with
  | none => exact ⟨d, hd, .refl d⟩
  | claim hd' hc =>
    cases hd.symm.trans hd'
    exact ⟨_, rfl, Document.grows_claim hc⟩
  | create _ _ _ hd' => cases hd.symm.trans hd'
  | update hd' hu =>
    cases hd.symm.trans hd'
    exact ⟨_, rfl, Document.grows_write _ d⟩

/-- What has been sent, and what has been answered, is in order. -/
def RequestOk (apply : U → F → F) (docs : List (Document F U)) :
    DbRequest F U × Option (DbReply F U) → Prop
  | (.claim fence, reply) => ∀ d, reply = some (.document (some d)) →
    Known apply docs d ∧ d.fence = some fence
  | (.create c _ _, reply) => c.create = true ∧
    ∀ d, reply = some (.document (some d)) → Known apply docs d
  | (.find, _) => True
  | (.update w, _) => Counts docs w.version w.seen

theorem RequestOk.mono (h : RequestOk apply docs r) (he : Evolves docs docs') :
    RequestOk apply docs' r := by
  obtain ⟨request, reply⟩ := r
  cases request with
  | claim fence => exact fun d hd => ⟨(h d hd).1.mono he, (h d hd).2⟩
  | create c fence initial => exact ⟨h.1, fun d hd => (h.2 d hd).mono he⟩
  | find => trivial
  | update w => exact Counts.mono h he

theorem Known.first (hd : docs = [d]) (h : d.Ok apply) : Known apply docs d :=
  ⟨h, d, hd, .refl d⟩

theorem OneDocument.effect {request : DbRequest F U} (h : OneDocument apply docs)
    (hr : RequestOk apply docs (request, reply)) (he : request.Effect apply docs docs') :
    OneDocument apply docs' := by
  have hok : ∀ d, docs = [d] → d.Ok apply := by
    intro d hd
    rcases h with h | ⟨e, h, ho⟩
    · cases h.symm.trans hd
    · cases h.symm.trans hd
      exact ho
  cases he with
  | none => exact h
  | claim hd hc => exact .inr ⟨_, rfl, (hok _ hd).claim hc⟩
  | create _ _ _ hd => exact .inr ⟨_, rfl, .first _ _ _⟩
  | update hd hu =>
    obtain ⟨e, he, hv⟩ := hr
    cases hd.symm.trans he
    exact .inr ⟨_, rfl, (hok _ hd).write hu hv⟩

theorem RequestOk.execute {request : DbRequest F U} (h : OneDocument apply docs)
    (hr : RequestOk apply docs (request, none)) :
    RequestOk apply (request.execute apply docs).1
      (request, some (request.execute apply docs).2) := by
  have heff := DbRequest.execute_effect h request
  have hone := h.effect hr heff
  have hr' := hr.mono heff.evolves
  cases request with
  | claim fence =>
    intro d hd
    rcases h with rfl | ⟨e, rfl, _⟩
    · simp [DbRequest.execute, modifyFirst] at hd
    · simp only [DbRequest.execute, modifyFirst] at hd hone ⊢
      split
      · next hc =>
        simp only [hc, if_true, Option.some.injEq, DbReply.document.injEq] at hd hone
        subst hd
        rcases hone with hone | ⟨_, hone, hok⟩
        · cases hone
        · cases hone
          exact ⟨.first rfl hok, rfl⟩
      · next hc => simp [hc] at hd
  | create c fence initial =>
    refine ⟨hr'.1, fun d hd => ?_⟩
    rcases h with rfl | ⟨e, rfl, hok⟩
    · simp only [DbRequest.execute, Option.some.injEq, DbReply.document.injEq] at hd ⊢
      subst hd
      exact .first rfl (.first _ _ _)
    · simp only [DbRequest.execute, Option.some.injEq, DbReply.document.injEq] at hd ⊢
      subst hd
      exact .first rfl hok
  | find => trivial
  | update w => exact hr'

def Sent (requests : List (DbRequest F U × Option (DbReply F U))) (i : Nat)
  (r : DbRequest F U) : Prop :=
  ∃ reply, requests[i]? = some (r, reply)

/-- A cached document that was decoded as the one and has been changed by the application and
acknowledged since. -/
inductive Orm.Descends (orm : Orm F U D E) (doc : D) : D → Prop
  | decoded : Descends orm doc doc
  | edit (a : E) : Descends orm doc doc' → Descends orm doc (orm.edit a doc')
  | ack (revision version : Nat) :
    Descends orm doc doc' → Descends orm doc (orm.ack doc' revision version)

/-- A cached document comes from a stored one on which the fence was claimed. -/
structure Holds (orm : Orm F U D E) (docs : List (Document F U)) (found : Document F U)
    (fence : Nat) (doc : D) : Prop where
  known : Known orm.apply docs found
  fenced : found.fence = some fence
  descends : orm.Descends (orm.decode found.fields found.version) doc

theorem Holds.mono (h : Holds orm docs found fence doc) (he : Evolves docs docs') :
    Holds orm docs' found fence doc :=
  ⟨h.known.mono he, h.fenced, h.descends⟩

/-- A cached copy knows as many updates as its version says, at least those it was loaded with,
and its fence has been claimed. -/
structure EntryOk (orm : Orm F U D E) (docs : List (Document F U)) (e : Entry F U D) : Prop where
  holds : Holds orm docs e.found e.fence e.doc
  version : Counts docs (orm.version e.doc) e.seen
  loaded : e.found.writes.length ≤ e.seen

def TaskOk (requests : List (DbRequest F U × Option (DbReply F U))) (cache : Option (Entry F U D))
    (i : Nat) : DbTask F → Prop
  | .claiming _ fence _ => Sent requests i (.claim fence)
  | .creating c fence _ => ∃ initial, Sent requests i (.create c fence initial)
  | .finding .. => Sent requests i .find
  | .saving _ version _ => ∃ e w, cache = some e ∧ Sent requests i (.update w) ∧
    w.version = version ∧ w.seen = e.seen ∧ w.entry = e.id

structure DbNode.Ok (orm : Orm F U D E) (docs : List (Document F U))
    (requests : List (DbRequest F U × Option (DbReply F U))) (x : DbNode F U D) : Prop where
  cache : ∀ e, x.cache = some e → EntryOk orm docs e
  running : ∀ task i, x.running = some (task, i) → TaskOk requests x.cache i task

structure Dbmgr.Inv (orm : Orm F U D E) (s : Dbmgr F U D) : Prop where
  one : OneDocument orm.apply s.docs
  requests : ∀ r ∈ s.requests, RequestOk orm.apply s.docs r
  nodes : ∀ n, (s.nodes n).Ok orm s.docs s.requests
  loads : ∀ l ∈ s.loads, Holds orm s.docs l.found l.fence l.doc

theorem EntryOk.mono (h : EntryOk orm docs e) (he : Evolves docs docs') : EntryOk orm docs' e :=
  ⟨h.holds.mono he, h.version.mono he, h.loaded⟩

theorem TaskOk.mono {task : DbTask F} {cache : Option (Entry F U D)}
    (h : TaskOk requests cache i task)
    (hs : ∀ r, Sent requests i r → Sent requests' i r) : TaskOk requests' cache i task := by
  cases task with
  | claiming c fence attempts => exact hs _ h
  | creating c fence attempts => exact h.imp fun _ => hs _
  | finding c fence attempts => exact hs _ h
  | saving kind version revision =>
    obtain ⟨e, w, he, hw, hrest⟩ := h
    exact ⟨e, w, he, hs _ hw, hrest⟩

theorem Sent.append (h : Sent requests i r) (l : List (DbRequest F U × Option (DbReply F U))) :
    Sent (requests ++ l) i r := by
  obtain ⟨reply, h⟩ := h
  obtain ⟨hlt, _⟩ := List.getElem?_eq_some_iff.mp h
  exact ⟨reply, (List.getElem?_append_left hlt).trans h⟩

theorem Sent.last (requests : List (DbRequest F U × Option (DbReply F U))) (r : DbRequest F U) :
    Sent (requests ++ [(r, none)]) requests.length r :=
  ⟨none, by simp⟩

namespace Dbmgr

theorem setNode_nodes (s : Dbmgr F U D) (n m : Nat) (x : DbNode F U D) :
    (s.setNode n x).nodes m = if m = n then x else s.nodes m := by
  simp only [setNode, Function.update_apply]

theorem Inv.setNode (h : s.Inv orm) (hx : x.Ok orm s.docs s.requests) :
    (s.setNode n x).Inv orm := by
  refine ⟨h.one, h.requests, fun m => ?_, h.loads⟩
  rw [setNode_nodes]
  split
  · exact hx
  · exact h.nodes m

theorem Inv.idle (h : s.Inv orm) (n : Nat) : (s.setRunning n none).Inv orm :=
  h.setNode ⟨(h.nodes n).cache, fun task i hr => by cases hr⟩

theorem Inv.drop (h : s.Inv orm) (n : Nat) :
    (s.setNode n { cache := none, running := none }).Inv orm :=
  h.setNode (x := {}) ⟨fun e he => (by cases he), fun task i hr => (by cases hr)⟩

theorem Inv.send {task : DbTask F} {r : DbRequest F U} (h : s.Inv orm)
    (hr : RequestOk orm.apply s.docs (r, none))
    (ht : TaskOk (s.requests ++ [(r, none)]) (s.nodes n).cache s.requests.length task) :
    (s.send n task r).Inv orm := by
  have hold : ∀ m, (s.nodes m).Ok orm s.docs (s.requests ++ [(r, none)]) := fun m =>
    ⟨(h.nodes m).cache, fun task i ht => ((h.nodes m).running task i ht).mono fun _ hs =>
      hs.append _⟩
  refine ⟨h.one, fun p hp => ?_, fun m => ?_, h.loads⟩
  · rcases List.mem_append.mp hp with hp | hp
    · exact h.requests p hp
    · cases List.mem_singleton.mp hp
      exact hr
  · simp only [Dbmgr.send, setRunning, setNode_nodes]
    split
    · refine ⟨(h.nodes n).cache, fun task' i hi => ?_⟩
      cases hi
      exact ht
    · exact hold m

theorem Inv.claimWithFence (h : s.Inv orm) (n : Nat) (c : Claimer F) (fence attempts : Nat) :
    (s.claimWithFence n c fence attempts).Inv orm := by
  cases attempts with
  | zero => exact h.idle n
  | succ attempts => exact h.send (fun d hd => by cases hd) (.last _ _)

theorem Inv.resolveUnclaimed (h : s.Inv orm) (n : Nat) (c : Claimer F) (fence attempts : Nat) :
    (s.resolveUnclaimed orm n c fence attempts).Inv orm := by
  simp only [Dbmgr.resolveUnclaimed]
  split
  · next hc => exact h.send ⟨hc, fun d hd => by cases hd⟩ ⟨_, .last _ _⟩
  · exact h.send trivial (.last _ _)

theorem setNode_setNode (s : Dbmgr F U D) (n : Nat) (x y : DbNode F U D) :
    (s.setNode n x).setNode n y = s.setNode n y := by
  simp only [setNode, Function.update_idem]

/-- After `save_doc` the row lock is free, and the entry stays or is dropped. -/
theorem saved_cases (orm : Orm F U D E) (s : Dbmgr F U D) (n : Nat) (kind : SaveKind) (ok : Bool) :
    s.saved orm n kind ok = s.setNode n {} ∨ s.saved orm n kind ok = s.setRunning n none := by
  simp only [saved]
  split
  · split
    · exact .inl rfl
    · exact .inr rfl
  · split
    · exact .inl rfl
    · exact .inr rfl
  · exact .inr rfl

theorem Inv.saved (h : s.Inv orm) (n : Nat) (kind : SaveKind) (ok : Bool) :
    (s.saved orm n kind ok).Inv orm := by
  rcases saved_cases orm s n kind ok with he | he
  · exact he ▸ h.drop n
  · exact he ▸ h.idle n

theorem Inv.savedAs (h : s.Inv orm) (n : Nat) (kind : SaveKind) (he : EntryOk orm s.docs e) :
    ((s.setCache n (some e)).saved orm n kind true).Inv orm := by
  rcases saved_cases orm (s.setCache n (some e)) n kind true with hs | hs
  · rw [hs, setCache, setNode_setNode]
    exact h.drop n
  · rw [hs, setRunning, setCache, setNode_setNode]
    refine h.setNode ⟨fun e' he' => ?_, fun task i hr => (by cases hr)⟩
    simp only [setNode_nodes, if_true, Option.some.injEq] at he'
    exact he' ▸ he

theorem Inv.saveDoc (h : s.Inv orm) (hc : (s.nodes n).cache = some e) (fence : Nat)
    (kind : SaveKind) (lease : Bool) :
    (s.saveDoc orm n e fence kind lease).Inv orm := by
  have hok := (h.nodes n).cache e hc
  simp only [Dbmgr.saveDoc]
  split
  · exact h.saved n kind false
  · split
    · exact h.saved n kind true
    · split
      · exact h.savedAs n kind
          ⟨⟨hok.holds.known, hok.holds.fenced, .ack _ _ hok.holds.descends⟩,
            (orm.version_ack ..).symm ▸ hok.version, hok.loaded⟩
      · refine Inv.send h ?_ ?_
        · exact hok.version
        · exact ⟨e, _, hc, .last _ _, rfl, rfl, rfl⟩

theorem Inv.acked (h : s.Inv orm) (kind : SaveKind) (version revision : Nat) (lease : Bool)
    (hw : ∀ e, (s.nodes n).cache = some e → Counts s.docs version e.seen) :
    (s.acked orm n kind version revision lease).Inv orm := by
  simp only [Dbmgr.acked]
  split
  · next e he =>
    have hok := (h.nodes n).cache e he
    split
    · apply h.savedAs n kind
      obtain ⟨d, hd, hv⟩ := hw e he
      refine ⟨⟨hok.holds.known, hok.holds.fenced, .ack _ _ hok.holds.descends⟩, ⟨d, hd, ?_⟩,
        Nat.le_succ_of_le hok.loaded⟩
      exact (orm.version_ack ..).trans (congrArg (· + 1) hv)
    · exact h.saved n kind false
  · exact h.idle n

theorem Inv.claimed (h : s.Inv orm) (n : Nat) (c : Claimer F) (lease : Bool)
    (hd : Known orm.apply s.docs d) (hf : d.fence = some fence) :
    (s.claimed orm n c fence d lease).Inv orm := by
  have hversion : Counts s.docs d.version d.writes.length := by
    obtain ⟨hok, e, he, hg⟩ := hd
    exact ⟨e, he, hok.version.trans (congrArg (· + _) hg.originVersion.symm)⟩
  simp only [Dbmgr.claimed]
  split
  · split
    · have hnew := h.setNode (n := n) (x := ⟨some ⟨s.entries, fence,
        orm.decode d.fields d.version, d, d.writes.length⟩, none⟩) ⟨fun e he => ?_,
          fun task i hr => (by cases hr)⟩
      · refine ⟨hnew.one, hnew.requests, hnew.nodes, fun l hl => ?_⟩
        rcases List.mem_cons.mp hl with rfl | hl
        · exact ⟨hd, hf, .decoded⟩
        · exact h.loads l hl
      · cases he
        exact ⟨⟨hd, hf, .decoded⟩, (orm.version_decode ..).symm ▸ hversion, Nat.le_refl _⟩
    · exact h.idle n
  · split
    · next e he =>
      split
      · have hdrop := h.drop n
        exact ⟨hdrop.one, hdrop.requests, hdrop.nodes, hdrop.loads⟩
      · exact h.saveDoc he fence .recover lease
    · exact h.idle n

theorem Inv.answered {task : DbTask F} {reply : DbReply F U} (h : s.Inv orm)
    (hr : (s.nodes n).running = some (task, i)) (hi : s.requests[i]? = some (r, some reply))
    (lease : Bool) : (s.answered orm n task reply lease).Inv orm := by
  have htask := (h.nodes n).running task i hr
  have hreq := h.requests _ (List.mem_of_getElem? hi)
  have hsent : ∀ r', Sent s.requests i r' → r = r' := by
    rintro r' ⟨reply', hr'⟩
    cases hi.symm.trans hr'
    rfl
  rw [Dbmgr.answered.eq_def]
  split
  · next c fence attempts d =>
    cases hsent _ htask
    obtain ⟨hd, hf⟩ := hreq d rfl
    exact h.claimed n c lease hd hf
  · exact h.resolveUnclaimed ..
  · next c fence attempts d =>
    obtain ⟨initial, hs⟩ := htask
    cases hsent _ hs
    split
    · next hf => exact h.claimed n c lease (hreq.2 d rfl) hf
    · split
      · exact h.idle n
      · exact h.claimWithFence ..
  · split
    · exact h.idle n
    · exact h.claimWithFence ..
  · obtain ⟨e, w, he, hs, hv, hseen, _⟩ := htask
    cases hsent _ hs
    refine h.acked _ _ _ lease fun e' he' => ?_
    cases he.symm.trans he'
    exact hv ▸ hseen ▸ hreq
  · exact h.saved ..
  · exact h.idle n

theorem Inv.execute {r : DbRequest F U} (h : s.Inv orm) (hi : s.requests[i]? = some (r, none)) :
    Inv orm { s with
      docs := (r.execute orm.apply s.docs).1,
      requests := s.requests.set i (r, some (r.execute orm.apply s.docs).2) } := by
  have hr := h.requests _ (List.mem_of_getElem? hi)
  have heff := DbRequest.execute_effect h.one r
  have he := heff.evolves
  have hsent : ∀ j r', Sent s.requests j r' →
      Sent (s.requests.set i (r, some (r.execute orm.apply s.docs).2)) j r' := by
    rintro j r' ⟨reply, hj⟩
    rw [Sent, List.getElem?_set]
    split
    · next hij =>
      subst hij
      cases hi.symm.trans hj
      exact ⟨_, if_pos (List.getElem?_eq_some_iff.mp hi).1⟩
    · exact ⟨reply, hj⟩
  refine ⟨h.one.effect hr heff, fun p hp => ?_, fun n => ?_, fun l hl => ?_⟩
  · rcases List.mem_or_eq_of_mem_set hp with hp | rfl
    · exact (h.requests p hp).mono he
    · exact RequestOk.execute h.one hr
  · exact ⟨fun e hc => ((h.nodes n).cache e hc).mono he,
      fun task j ht => ((h.nodes n).running task j ht).mono (hsent j)⟩
  · exact (h.loads l hl).mono he

theorem Inv.setCache (h : s.Inv orm) (hfree : (s.nodes n).running = none) :
    (s.setCache n none).Inv orm := by
  refine h.setNode ⟨fun e he => (by cases he), fun task i hr => ?_⟩
  cases hfree.symm.trans hr

theorem Inv.edit (h : s.Inv orm) (n : Nat) (a : E) :
    (s.setCache n ((s.nodes n).cache.map fun e => { e with doc := orm.edit a e.doc })).Inv orm := by
  refine h.setNode ⟨fun e he => ?_, fun task i hr => ?_⟩
  · obtain ⟨e', he', rfl⟩ := Option.map_eq_some_iff.mp he
    have hok := (h.nodes n).cache e' he'
    exact ⟨⟨hok.holds.known, hok.holds.fenced, .edit a hok.holds.descends⟩,
      (orm.version_edit ..).symm ▸ hok.version, hok.loaded⟩
  · have ht := (h.nodes n).running task i hr
    cases task with
    | saving kind version revision =>
      obtain ⟨e, w, he, hrest⟩ := ht
      exact ⟨_, w, congrArg (Option.map _) he, hrest⟩
    | claiming c fence attempts => exact ht
    | creating c fence attempts => exact ht
    | finding c fence attempts => exact ht

theorem Inv.load (h : s.Inv orm) (hfree : (s.nodes n).running = none) (fence : Nat)
    (create : Bool) (initial : F) (lease still : Bool) :
    (s.load orm n fence create initial lease still).Inv orm := by
  simp only [Dbmgr.load]
  split
  · exact h
  · split
    · next e he =>
      split
      · next hf =>
        refine ⟨h.one, h.requests, h.nodes, fun l hl => ?_⟩
        rcases List.mem_cons.mp hl with rfl | hl
        · exact hf ▸ ((h.nodes n).cache e he).holds
        · exact h.loads l hl
      · split
        · exact h
        · split
          · exact (h.setCache hfree).claimWithFence ..
          · exact h.setCache hfree
    · split
      · exact h.claimWithFence ..
      · exact h

theorem Inv.recover (h : s.Inv orm) (hfree : (s.nodes n).running = none) (oldFence newFence : Nat)
    (lease : Bool) : (s.recover orm n oldFence newFence lease).Inv orm := by
  simp only [Dbmgr.recover]
  split
  · split
    · exact h
    · split
      · exact h.setCache hfree
      · split
        · exact h
        · exact h.claimWithFence ..
  · exact h

theorem Inv.init (h : s.Initial) : s.Inv orm := by
  obtain ⟨hd, hr, hn, _, hl, _⟩ := h
  refine ⟨?_, fun r hr' => ?_, fun n => ?_, fun l hl' => ?_⟩
  · rcases hd with hd | ⟨fields, version, fence, hd⟩
    · exact .inl hd
    · exact .inr ⟨_, hd, .first _ _ _⟩
  · simp [hr] at hr'
  · rw [hn n]
    exact ⟨fun e he => (by cases he), fun task i hr => (by cases hr)⟩
  · simp [hl] at hl'

theorem Inv.step (h : s.Inv orm) (ht : s.step orm a = some t) : t.Inv orm := by
  have hfree : ∀ n, ¬ ((s.nodes n).running.isSome = true) → (s.nodes n).running = none :=
    fun n hn => by simpa using hn
  cases a with
  | load n fence create initial lease still =>
    simp only [Dbmgr.step, Option.ite_none_left_eq_some] at ht
    obtain ⟨hn, ht⟩ := ht
    cases ht
    exact h.load (hfree n hn) fence create initial lease still
  | save n lease =>
    simp only [Dbmgr.step, Option.ite_none_left_eq_some] at ht
    obtain ⟨_, ht⟩ := ht
    split at ht
    · next e he =>
      cases ht
      exact h.saveDoc he e.fence .save lease
    · cases ht
      exact h
  | unload n lease =>
    simp only [Dbmgr.step, Option.ite_none_left_eq_some] at ht
    obtain ⟨_, ht⟩ := ht
    split at ht
    · next e he =>
      cases ht
      exact h.saveDoc he e.fence .unload lease
    · cases ht
      exact h
  | recover n oldFence newFence lease =>
    simp only [Dbmgr.step, Option.ite_none_left_eq_some] at ht
    obtain ⟨hn, ht⟩ := ht
    cases ht
    exact h.recover (hfree n hn) oldFence newFence lease
  | discardClean n fence =>
    simp only [Dbmgr.step, Option.ite_none_left_eq_some] at ht
    obtain ⟨hn, ht⟩ := ht
    split at ht
    · cases ht
      exact h.setCache (hfree n hn)
    · cases ht
      exact h
  | discard n fence =>
    simp only [Dbmgr.step, Option.ite_none_left_eq_some] at ht
    obtain ⟨hn, ht⟩ := ht
    split at ht
    · cases ht
      exact h.setCache (hfree n hn)
    · cases ht
      exact h
  | edit n a =>
    cases ht
    exact h.edit n a
  | execute i =>
    simp only [Dbmgr.step] at ht
    split at ht
    · next request hi =>
      cases ht
      exact h.execute hi
    · cases ht
  | reply n lease =>
    simp only [Dbmgr.step] at ht
    split at ht
    · next task i hr =>
      split at ht
      · next hi =>
        cases ht
        exact h.answered hr hi lease
      · cases ht
    · cases ht
  | callFailed n =>
    simp only [Dbmgr.step] at ht
    split at ht
    · cases ht
      exact h.saved ..
    · cases ht
      exact h.idle n
    · cases ht
  | crash n =>
    cases ht
    exact h.drop n

theorem inv_reaches (h : (system orm).Reaches ok s) : s.Inv orm :=
  h.invariant (fun _ => Inv.init) fun _ _ _ hi _ ht => hi.step ht

theorem saved_docs (orm : Orm F U D E) (s : Dbmgr F U D) (n : Nat) (kind : SaveKind) (ok : Bool) :
    (s.saved orm n kind ok).docs = s.docs := by
  rcases saved_cases orm s n kind ok with he | he <;> rw [he] <;> rfl

theorem saveDoc_docs (orm : Orm F U D E) (s : Dbmgr F U D) (n : Nat) (e : Entry F U D)
    (fence : Nat) (kind : SaveKind) (lease : Bool) :
    (s.saveDoc orm n e fence kind lease).docs = s.docs := by
  simp only [saveDoc]
  split
  · exact saved_docs ..
  · split
    · exact saved_docs ..
    · split
      · exact saved_docs ..
      · rfl

theorem claimWithFence_docs (s : Dbmgr F U D) (n : Nat) (c : Claimer F) (fence attempts : Nat) :
    (s.claimWithFence n c fence attempts).docs = s.docs := by
  cases attempts <;> rfl

theorem claimed_docs (orm : Orm F U D E) (s : Dbmgr F U D) (n : Nat) (c : Claimer F) (fence : Nat)
    (d : Document F U) (lease : Bool) : (s.claimed orm n c fence d lease).docs = s.docs := by
  simp only [claimed]
  split
  · split <;> rfl
  · split
    · split
      · rfl
      · exact saveDoc_docs ..
    · rfl

theorem answered_docs (orm : Orm F U D E) (s : Dbmgr F U D) (n : Nat) (task : DbTask F)
    (reply : DbReply F U) (lease : Bool) : (s.answered orm n task reply lease).docs = s.docs := by
  rw [answered.eq_def]
  split
  · exact claimed_docs ..
  · simp only [resolveUnclaimed]
    split <;> rfl
  · split
    · exact claimed_docs ..
    · split
      · rfl
      · exact claimWithFence_docs ..
  · split
    · rfl
    · exact claimWithFence_docs ..
  · simp only [acked]
    split
    · split
      · exact saved_docs ..
      · exact saved_docs ..
    · rfl
  · exact saved_docs ..
  · rfl

theorem load_docs (orm : Orm F U D E) (s : Dbmgr F U D) (n fence : Nat) (create : Bool)
    (initial : F) (lease still : Bool) :
    (s.load orm n fence create initial lease still).docs = s.docs := by
  simp only [load]
  split
  · rfl
  · split
    · split
      · rfl
      · split
        · rfl
        · split <;> rfl
    · split <;> rfl

theorem recover_docs (orm : Orm F U D E) (s : Dbmgr F U D) (n oldFence newFence : Nat)
    (lease : Bool) : (s.recover orm n oldFence newFence lease).docs = s.docs := by
  simp only [recover]
  split
  · split
    · rfl
    · split
      · rfl
      · split <;> rfl
  · rfl

/-- The stored documents change only when Mongo executes an operation. -/
theorem step_docs (h : s.step orm a = some t) :
    t.docs = s.docs ∨ ∃ i r, a = .execute i ∧ s.requests[i]? = some (r, none) ∧
      t.docs = (r.execute orm.apply s.docs).1 := by
  cases a with
  | execute i =>
    simp only [step] at h
    split at h
    · next request hi =>
      cases h
      exact .inr ⟨i, request, rfl, hi, rfl⟩
    · cases h
  | load n fence create initial lease still =>
    simp only [step, Option.ite_none_left_eq_some] at h
    cases h.2
    exact .inl (load_docs ..)
  | save n lease =>
    simp only [step, Option.ite_none_left_eq_some] at h
    obtain ⟨_, h⟩ := h
    split at h
    · cases h
      exact .inl (saveDoc_docs ..)
    · cases h
      exact .inl rfl
  | unload n lease =>
    simp only [step, Option.ite_none_left_eq_some] at h
    obtain ⟨_, h⟩ := h
    split at h
    · cases h
      exact .inl (saveDoc_docs ..)
    · cases h
      exact .inl rfl
  | recover n oldFence newFence lease =>
    simp only [step, Option.ite_none_left_eq_some] at h
    cases h.2
    exact .inl (recover_docs ..)
  | discardClean n fence =>
    simp only [step, Option.ite_none_left_eq_some] at h
    obtain ⟨_, h⟩ := h
    split at h <;> cases h <;> exact .inl rfl
  | discard n fence =>
    simp only [step, Option.ite_none_left_eq_some] at h
    obtain ⟨_, h⟩ := h
    split at h <;> cases h <;> exact .inl rfl
  | edit n a =>
    cases h
    exact .inl rfl
  | reply n lease =>
    simp only [step] at h
    split at h
    · split at h
      · cases h
        exact .inl (answered_docs ..)
      · cases h
    · cases h
  | callFailed n =>
    simp only [step] at h
    split at h
    · cases h
      exact .inl (saved_docs ..)
    · cases h
      exact .inl rfl
    · cases h
  | crash n =>
    cases h
    exact .inl rfl

structure StepFenced (orm : Orm F U D E) (s : Dbmgr F U D) (a : DbAction F E)
    (t : Dbmgr F U D) : Prop where
  fence : ∀ d f, s.docs = [d] → d.fence = some f →
    ∃ e g, t.docs = [e] ∧ e.fence = some g ∧ f ≤ g
  update : ∀ d, s.docs = [d] → ∃ e, t.docs = [e] ∧
    (e.fields = d.fields ∧ e.version = d.version ∧ e.writes = d.writes ∨
      ∃ w, e.fields = orm.apply w.update d.fields ∧ e.version = d.version + 1 ∧
        e.writes = d.writes ++ [w] ∧ w.version = d.version ∧ w.seen = d.writes.length ∧
        ∀ c ∈ d.claims, c.1 ≤ w.fence)
  create : s.docs = [] → t.docs = [] ∨ ∃ i c fence initial, a = .execute i ∧
    s.requests[i]? = some (.create c fence initial, none) ∧ c.create = true

/-- A cached document was decoded from the stored one as some of its updates had left it, and
among these is every update that is ever made under a smaller fence. -/
def Complete (orm : Orm F U D E) (docs : List (Document F U)) (fence : Nat) (doc : D) : Prop :=
  ∃ d made later, docs = [d] ∧ d.writes = made ++ later ∧ (∀ w ∈ later, fence ≤ w.fence) ∧
    orm.Descends (orm.decode (Document.replay orm.apply d.origin made)
      (d.originVersion + made.length)) doc

/-- The key has one document at most; what a load returns, and what a node goes on to change and
save, is complete; and every step is fenced. -/
structure Fenced (orm : Orm F U D E) (s : Dbmgr F U D) : Prop where
  one : s.docs.length ≤ 1
  loads : ∀ l ∈ s.loads, Complete orm s.docs l.fence l.doc
  cached : ∀ n e, (s.nodes n).cache = some e → Complete orm s.docs e.fence e.doc
  step : ∀ a t, s.step orm a = some t → StepFenced orm s a t

theorem holds_complete (h : Holds orm docs found fence doc) (ho : OneDocument orm.apply docs) :
    Complete orm docs fence doc := by
  obtain ⟨⟨hok, d, hd, hg⟩, hf, hdoc⟩ := h
  obtain ⟨later, hl⟩ := hg.writes
  obtain ⟨n, hc, hn⟩ := hok.claimed fence hf
  have hdok : d.Ok orm.apply := by
    rcases ho with ho | ⟨e, he, ho⟩
    · cases hd.symm.trans ho
    · cases hd.symm.trans he
      exact ho
  have hfields : found.fields = Document.replay orm.apply d.origin found.writes :=
    hg.origin ▸ hok.fields
  have hversion : found.version = d.originVersion + found.writes.length :=
    hg.originVersion ▸ hok.version
  refine ⟨d, found.writes, later, hd, hl.symm, fun w hw => ?_, hfields ▸ hversion ▸ hdoc⟩
  apply (hdok.fenced fence n (hg.claims _ hc)).2 w
  rw [← hl, List.drop_append]
  exact List.mem_append.mpr (.inr (by rwa [Nat.sub_eq_zero_of_le hn]))

theorem StepFenced.same (h : t.docs = s.docs) : StepFenced orm s a t :=
  ⟨fun d f hd hf => ⟨d, f, h.trans hd, hf, Nat.le_refl f⟩,
    fun d hd => ⟨d, h.trans hd, .inl ⟨rfl, rfl, rfl⟩⟩, fun hd => .inl (h.trans hd)⟩

theorem Inv.stepFenced (h : s.Inv orm) (ht : s.step orm a = some t) : StepFenced orm s a t := by
  rcases step_docs ht with hd | ⟨i, r, ha, hi, hd⟩
  · exact .same hd
  · have heff := DbRequest.execute_effect h.one r
    have hr := h.requests _ (List.mem_of_getElem? hi)
    rw [← hd] at heff
    refine ⟨fun d f hs hf => ?_, fun d hs => ?_, fun hs => ?_⟩
    · obtain ⟨e, he, hg⟩ := heff.evolves d hs
      obtain ⟨g, hg, hle⟩ := hg.fence f hf
      exact ⟨e, g, he, hg, hle⟩
    · have hok : d.Ok orm.apply := by
        rcases h.one with ho | ⟨e, he, ho⟩
        · cases hs.symm.trans ho
        · cases hs.symm.trans he
          exact ho
      generalize s.docs = docs at heff hs hr
      generalize t.docs = docs' at heff
      cases heff with
      | none => exact ⟨d, hs, .inl ⟨rfl, rfl, rfl⟩⟩
      | claim hs' _ =>
        cases hs.symm.trans hs'
        exact ⟨_, rfl, .inl ⟨rfl, rfl, rfl⟩⟩
      | create _ _ _ hs' => cases hs.symm.trans hs'
      | @update e w hs' hu =>
        cases hs.symm.trans hs'
        have hv : d.version = w.version := by
          simp only [Document.updatable, Bool.decide_and, Bool.and_eq_true,
            decide_eq_true_eq] at hu
          exact hu.1
        obtain ⟨_, hd', hseen⟩ := hr
        cases hs.symm.trans hd'
        have hwok := (hok.write hu hseen).writes d.writes.length w (by simp [Document.write])
        refine ⟨_, rfl, .inr ⟨w, rfl, congrArg (· + 1) hv.symm, rfl, hv.symm, hwok.2, ?_⟩⟩
        intro c hc
        exact hok.updatable hu hc
    · generalize s.docs = docs at heff hs
      generalize t.docs = docs' at heff
      cases heff with
      | none => exact .inl hs
      | claim hs' _ => cases hs.symm.trans hs'
      | create c fence initial _ => exact .inr ⟨i, c, fence, initial, ha, hi, hr.1⟩
      | update hs' _ => cases hs.symm.trans hs'

/-- For any nodes, handles and order of the Mongo operations, persistence is fenced. -/
theorem fenced_single_writer (h : (system orm).Reaches anyStep s) : Fenced orm s := by
  have hi := inv_reaches h
  refine ⟨?_, fun l hl => holds_complete (hi.loads l hl) hi.one,
    fun n e he => holds_complete ((hi.nodes n).cache e he).holds hi.one,
    fun a t ht => hi.stepFenced ht⟩
  rcases hi.one with hd | ⟨d, hd, _⟩
  · simp [hd]
  · simp [hd]

end Dbmgr

/-- A cached document with one number in it. -/
structure Tally where
  version : Nat
  value : Nat
  dirty : Bool := false
  revision : Nat := 0
  deriving DecidableEq

/-- The ORM of such documents: a change sets the number, and an acknowledgement clears the dirty
flag if nothing has been changed since the snapshot. -/
def tallyOrm : Orm Nat Nat Tally Nat where
  blank := 0
  decode value version := { version := version, value := value }
  version := Tally.version
  isDirty := Tally.dirty
  revision := Tally.revision
  snapshot doc := if doc.dirty then some doc.value else none
  ack doc revision version :=
    { doc with version := version, dirty := doc.dirty && doc.revision != revision }
  edit value doc := { doc with value := value, dirty := true, revision := doc.revision + 1 }
  apply update _ := update
  version_decode _ _ := rfl
  version_ack _ _ _ := rfl
  version_edit _ _ := rfl

namespace Dbmgr

def blank : Dbmgr F U D := ⟨[], [], fun _ => {}, 0, [], []⟩

theorem blank_initial : (blank : Dbmgr F U D).Initial :=
  ⟨.inl rfl, rfl, fun _ => rfl, rfl, rfl, rfl⟩

/-- Node 0 creates the document and saves a change; node 1 claims it, and the change node 0 saves
after that is refused. -/
def takenOver : Dbmgr Nat Nat Tally :=
  (system tallyOrm).run anyStep blank [.load 0 1 true 3 true true, .execute 0, .reply 0 true,
    .execute 1, .reply 0 true, .edit 0 5, .save 0 true, .execute 2, .reply 0 true,
    .load 1 2 false 0 true true, .edit 0 7, .execute 3, .reply 1 true, .save 0 true, .execute 4,
    .reply 0 true] (by decide +kernel)

theorem fenced_single_writer_takenOver : Fenced tallyOrm takenOver ∧
    takenOver.docs.map Document.fields = [5] ∧ takenOver.loads.length = 2 :=
  ⟨fenced_single_writer ((system tallyOrm).run_reaches anyStep _ blank_initial (by decide +kernel)),
    by decide +kernel, by decide +kernel⟩

end Dbmgr

end Skyext
