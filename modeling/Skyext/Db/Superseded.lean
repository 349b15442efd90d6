import Skyext.Db.Fenced

namespace Skyext
set_option autoImplicit true

open Machine

/-- The update of the save that holds the row lock has taken effect, and its reply is there. -/
def Landed (requests : List (DbRequest F U × Option (DbReply F U))) (x : DbNode F U D) : Prop :=
  ∃ kind version revision i w, x.running = some (.saving kind version revision, i) ∧
    requests[i]? = some (.update w, some (.updated true))

/-- Between the load of the entry and the claim that found the document, another copy has
written. -/
def Overtaken (r : Superseded F U D) : Prop :=
  ∃ i w, r.entry.found.writes.length ≤ i ∧ r.claimed.writes[i]? = some w ∧ w.entry ≠ r.entry.id

variable {orm : Orm F U D E} {docs docs' : List (Document F U)} {d : Document F U}
  {requests requests' : List (DbRequest F U × Option (DbReply F U))} {s t : Dbmgr F U D}
  {e : Entry F U D} {x : DbNode F U D} {w : Write U} {entries : Nat}

/-- A cached copy knows of every update of its own, but for one whose reply is there. -/
structure DbNode.Own (docs : List (Document F U))
    (requests : List (DbRequest F U × Option (DbReply F U))) (entries : Nat) (x : DbNode F U D) :
    Prop where
  id : ∀ e, x.cache = some e → e.id < entries
  seen : ∀ e d, x.cache = some e → docs = [d] → e.seen ≤ d.writes.length
  found : ∀ e task i r d, x.cache = some e → x.running = some (task, i) →
    requests[i]? = some (r, some (.document (some d))) → e.seen ≤ d.writes.length
  own : ∀ e d i w, x.cache = some e → docs = [d] → d.writes[i]? = some w → w.entry = e.id →
    i < e.seen ∨ i = e.seen ∧ Landed requests x

theorem replied_of_append {r r' : DbRequest F U} {reply : DbReply F U} {i : Nat}
    (h : (requests ++ [(r, none)])[i]? = some (r', some reply)) :
    requests[i]? = some (r', some reply) := by
  rw [List.getElem?_append] at h
  split at h
  · exact h
  · rw [List.getElem?_singleton] at h
    split at h <;> cases h

theorem Landed.append {r : DbRequest F U} (h : Landed requests x) :
    Landed (requests ++ [(r, none)]) x := by
  obtain ⟨kind, version, revision, i, w, hr, hi⟩ := h
  have hlt := (List.getElem?_eq_some_iff.mp hi).1
  exact ⟨kind, version, revision, i, w, hr, (List.getElem?_append_left hlt).trans hi⟩

structure Dbmgr.Own (s : Dbmgr F U D) : Prop where
  nodes : ∀ n, (s.nodes n).Own s.docs s.requests s.entries
  distinct : ∀ n m e e', (s.nodes n).cache = some e → (s.nodes m).cache = some e' →
    e.id = e'.id → n = m
  sent : ∀ w reply, (.update w, reply) ∈ s.requests → w.entry < s.entries ∧
    ∀ n e, (s.nodes n).cache = some e → e.id = w.entry → n = w.node
  written : ∀ d w, s.docs = [d] → w ∈ d.writes → w.entry < s.entries
  landed : ∀ w d, (.update w, some (.updated true)) ∈ s.requests → s.docs = [d] →
    w.seen < d.writes.length
  superseded : ∀ r ∈ s.superseded, Overtaken r

namespace Dbmgr

theorem Own.init (h : s.Initial) : s.Own := by
  obtain ⟨hd, hr, hn, _, _, hsup⟩ := h
  have hcache : ∀ n e, (s.nodes n).cache ≠ some e := by
    intro n e he
    rw [hn n] at he
    cases he
  refine ⟨fun n => ⟨fun e he => ?_, fun e d he => ?_, fun e task i r d he => ?_,
    fun e d i w he => ?_⟩, fun n m e e' he => ?_, fun w reply hw => ?_, fun d w hs hw => ?_,
    fun w d hw => ?_, fun r hr' => ?_⟩
  · exact absurd he (hcache n e)
  · exact absurd he (hcache n e)
  · exact absurd he (hcache n e)
  · exact absurd he (hcache n e)
  · exact absurd he (hcache n e)
  · simp [hr] at hw
  · rcases hd with hd | ⟨fields, version, fence, hd⟩
    · cases hd.symm.trans hs
    · cases hd.symm.trans hs
      simp [Document.first] at hw
  · simp [hr] at hw
  · simp [hsup] at hr'

theorem Own.setNode (h : s.Own) (hx : x.Own s.docs s.requests s.entries)
    (hc : ∀ e, x.cache = some e → ∃ e', (s.nodes n).cache = some e' ∧ e'.id = e.id) :
    (s.setNode n x).Own := by
  have hold : ∀ m e, ((s.setNode n x).nodes m).cache = some e →
      ∃ e', (s.nodes m).cache = some e' ∧ e'.id = e.id := by
    intro m e he
    rw [setNode_nodes] at he
    split at he
    · next hm =>
      subst hm
      exact hc e he
    · exact ⟨e, he, rfl⟩
  refine ⟨fun m => ?_, fun m m' e e' he he' hid => ?_, fun w reply hw => ?_, h.written, h.landed,
    h.superseded⟩
  · rw [setNode_nodes]
    split
    · exact hx
    · exact h.nodes m
  · obtain ⟨e₁, he₁, h₁⟩ := hold m e he
    obtain ⟨e₂, he₂, h₂⟩ := hold m' e' he'
    exact h.distinct m m' e₁ e₂ he₁ he₂ (h₁.trans (hid.trans h₂.symm))
  · refine ⟨(h.sent w reply hw).1, fun m e he hid => ?_⟩
    obtain ⟨e', he', hid'⟩ := hold m e he
    exact (h.sent w reply hw).2 m e' he' (hid'.trans hid)

theorem Own.drop (h : s.Own) (n : Nat) : (s.setNode n {}).Own :=
  h.setNode (x := {}) ⟨fun e he => (by cases he), fun e d he => (by cases he),
    fun e task i r d he => (by cases he), fun e d i w he => (by cases he)⟩
    fun e he => (by cases he)

/-- Unless an update of its own has taken effect meanwhile, the copy knows of all of them. -/
theorem Own.idle (h : s.Own) (hl : ¬ Landed s.requests (s.nodes n)) :
    (s.setRunning n none).Own := by
  have hn := h.nodes n
  refine h.setNode ⟨hn.id, hn.seen, fun e task i r d _ hr => (by cases hr),
    fun e d i w he hd hi hw => ?_⟩ fun e he => ⟨e, he, rfl⟩
  exact (hn.own e d i w he hd hi hw).imp id fun hl' => absurd hl'.2 hl

theorem Own.saved (h : s.Own) (hl : ¬ Landed s.requests (s.nodes n)) (orm : Orm F U D E)
    (kind : SaveKind) (ok : Bool) : (s.saved orm n kind ok).Own := by
  rcases saved_cases orm s n kind ok with he | he
  · exact he ▸ h.drop n
  · exact he ▸ h.idle hl

theorem Own.savedAs (h : s.Own) (orm : Orm F U D E) (n : Nat) (kind : SaveKind)
    (hc : ∃ e', (s.nodes n).cache = some e' ∧ e'.id = e.id)
    (hseen : ∀ d, s.docs = [d] → e.seen ≤ d.writes.length)
    (hown : ∀ d i w, s.docs = [d] → d.writes[i]? = some w → w.entry = e.id → i < e.seen) :
    ((s.setCache n (some e)).saved orm n kind true).Own := by
  rcases saved_cases orm (s.setCache n (some e)) n kind true with hs | hs
  · rw [hs, setCache, setNode_setNode]
    exact h.drop n
  · rw [hs, setRunning, setCache, setNode_setNode]
    simp only [setNode_nodes, if_true]
    obtain ⟨e', he', hid⟩ := hc
    refine h.setNode ⟨fun e₁ h₁ => ?_, fun e₁ d h₁ hd => ?_, fun e₁ task i r d _ hr =>
      (by cases hr),
      fun e₁ d i w h₁ hd hi hw => ?_⟩ fun e₁ h₁ => ?_
    · cases h₁
      exact hid ▸ (h.nodes n).id e' he'
    · cases h₁
      exact hseen d hd
    · cases h₁
      exact .inl (hown d i w hd hi hw)
    · cases h₁
      exact ⟨e', he', hid⟩

theorem Own.send (h : s.Own) (hl : ¬ Landed s.requests (s.nodes n)) (task : DbTask F)
    (r : DbRequest F U) (hr : ∀ w, r = .update w → w.node = n ∧
      ∃ e, (s.nodes n).cache = some e ∧ e.id = w.entry) : (s.send n task r).Own := by
  have hcache : ∀ m, ((s.send n task r).nodes m).cache = (s.nodes m).cache := by
    intro m
    simp only [Dbmgr.send, setRunning, setNode_nodes]
    split
    · next hm => rw [hm]
    · rfl
  refine ⟨fun m => ?_, fun m m' e e' he he' => ?_, fun w reply hw => ?_, h.written,
    fun w d hw hd => ?_, h.superseded⟩
  · simp only [Dbmgr.send, setRunning, setNode_nodes]
    have hm := h.nodes m
    split
    · next hmn =>
      subst hmn
      refine ⟨hm.id, hm.seen, fun e task' i r' d he hi hf => ?_, fun e d i w he hd hi hw => ?_⟩
      · cases hi
        have hlt := (List.getElem?_eq_some_iff.mp (replied_of_append hf)).1
        exact absurd hlt (Nat.lt_irrefl _)
      · exact (hm.own e d i w he hd hi hw).imp id fun hl' => absurd hl'.2 hl
    · refine ⟨hm.id, hm.seen, fun e task' i r' d he hi hf => ?_, fun e d i w he hd hi hw => ?_⟩
      · exact hm.found e task' i r' d he hi (replied_of_append hf)
      · exact (hm.own e d i w he hd hi hw).imp id fun hl' => ⟨hl'.1, hl'.2.append⟩
  · rw [hcache] at he he'
    exact h.distinct m m' e e' he he'
  · rcases List.mem_append.mp hw with hw | hw
    · refine ⟨(h.sent w reply hw).1, fun m e he hid => ?_⟩
      exact (h.sent w reply hw).2 m e (hcache m ▸ he) hid
    · obtain ⟨hr', rfl⟩ := Prod.mk.inj (List.mem_singleton.mp hw)
      obtain ⟨hn, e, he, hid⟩ := hr w hr'.symm
      refine ⟨hid ▸ (h.nodes n).id e he, fun m e' he' hid' => ?_⟩
      rw [hcache] at he'
      exact hn ▸ h.distinct m n e' e he' he (hid'.trans hid.symm)
  · rcases List.mem_append.mp hw with hw | hw
    · exact h.landed w d hw hd
    · cases List.mem_singleton.mp hw

theorem Own.claimWithFence (h : s.Own) (hl : ¬ Landed s.requests (s.nodes n)) (c : Claimer F)
    (fence attempts : Nat) : (s.claimWithFence n c fence attempts).Own := by
  cases attempts with
  | zero => exact h.idle hl
  | succ attempts => exact h.send hl _ _ fun w hw => (by cases hw)

theorem Own.resolveUnclaimed (h : s.Own) (hl : ¬ Landed s.requests (s.nodes n))
    (orm : Orm F U D E) (c : Claimer F) (fence attempts : Nat) :
    (s.resolveUnclaimed orm n c fence attempts).Own := by
  simp only [Dbmgr.resolveUnclaimed]
  split
  · exact h.send hl _ _ fun w hw => (by cases hw)
  · exact h.send hl _ _ fun w hw => (by cases hw)

theorem Own.unlanded (h : s.Own) (hl : ¬ Landed s.requests (s.nodes n))
    (he : (s.nodes n).cache = some e) (hd : s.docs = [d]) (hi : d.writes[i]? = some w)
    (hw : w.entry = e.id) : i < e.seen :=
  ((h.nodes n).own e d i w he hd hi hw).resolve_right fun hl' => hl hl'.2

theorem Own.saveDoc (h : s.Own) (hl : ¬ Landed s.requests (s.nodes n)) (orm : Orm F U D E)
    (he : (s.nodes n).cache = some e) (fence : Nat) (kind : SaveKind) (lease : Bool) :
    (s.saveDoc orm n e fence kind lease).Own := by
  simp only [Dbmgr.saveDoc]
  split
  · exact h.saved hl orm kind false
  · split
    · exact h.saved hl orm kind true
    · split
      · exact h.savedAs orm n kind ⟨e, he, rfl⟩ (fun d => (h.nodes n).seen e d he)
          fun d i w hd hi hw => h.unlanded (e := e) hl he hd hi hw
      · refine h.send hl _ _ fun w hw => ?_
        cases hw
        exact ⟨rfl, e, he, rfl⟩

theorem Own.acked (h : s.Own) (hinv : s.Inv orm)
    (hr : (s.nodes n).running = some (.saving kind version revision, i))
    (hi : s.requests[i]? = some (r, some (.updated true))) :
    (s.acked orm n kind version revision true).Own := by
  obtain ⟨e, w, he, ⟨reply, hw⟩, _, hseen, hentry⟩ := (hinv.nodes n).running _ _ hr
  cases hi.symm.trans hw
  have hmem := List.mem_of_getElem? hi
  simp only [Dbmgr.acked, he, if_true]
  refine h.savedAs orm n kind ⟨e, he, rfl⟩ (fun d hd => ?_) fun d j w' hd hj hw' => ?_
  · have := h.landed w d hmem hd
    exact hseen ▸ this
  · rcases (h.nodes n).own e d j w' he hd hj hw' with hlt | ⟨hlt, _⟩
    · exact Nat.lt_succ_of_lt hlt
    · exact hlt ▸ Nat.lt_succ_self _

theorem Own.install (h : s.Own) (hd : ∀ cur, s.docs = [cur] → d.writes.length ≤ cur.writes.length)
    (fence : Nat) (doc : D) (loads : List (Loaded F U D)) :
    Own { s.setNode n ⟨some ⟨s.entries, fence, doc, d, d.writes.length⟩, none⟩ with
      entries := s.entries + 1, loads := loads } := by
  refine ⟨fun m => ?_, fun m m' e e' he he' hid => ?_, fun w reply hw => ?_,
    fun d' w hd' hw => Nat.lt_succ_of_lt (h.written d' w hd' hw), h.landed, h.superseded⟩
  · simp only [setNode_nodes]
    split
    · refine ⟨fun e he => ?_, fun e cur he hc => ?_, fun e task i r d' _ hr => (by cases hr),
        fun e cur i w he hc hi hw => ?_⟩
      · cases he
        exact Nat.lt_succ_self _
      · cases he
        exact hd cur hc
      · cases he
        have hlt := h.written cur w hc (List.mem_of_getElem? hi)
        exact absurd hlt (hw ▸ Nat.lt_irrefl _)
    · have hm := h.nodes m
      exact ⟨fun e he => Nat.lt_succ_of_lt (hm.id e he), hm.seen, hm.found, hm.own⟩
  · simp only [setNode_nodes] at he he'
    split at he
    · next hm =>
      split at he'
      · next hm' => exact hm.trans hm'.symm
      · cases he
        exact absurd ((h.nodes m').id e' he') (hid ▸ Nat.lt_irrefl _)
    · split at he'
      · cases he'
        exact absurd ((h.nodes m).id e he) (hid ▸ Nat.lt_irrefl _)
      · exact h.distinct m m' e e' he he' hid
  · obtain ⟨hlt, hnode⟩ := h.sent w reply hw
    refine ⟨Nat.lt_succ_of_lt hlt, fun m e he hid => ?_⟩
    simp only [setNode_nodes] at he
    split at he
    · cases he
      exact absurd hlt (hid ▸ Nat.lt_irrefl _)
    · exact hnode m e he hid

/-- A document that has just been claimed becomes a new copy, or it is compared with the one to be
recovered: where it is ahead, another copy has written. -/
theorem Own.claimed (h : s.Own) (hinv : s.Inv orm) (hr : (s.nodes n).running = some (task, i))
    (hi : s.requests[i]? = some (r, some (.document (some d))))
    (hl : ¬ Landed s.requests (s.nodes n)) (hd : Known orm.apply s.docs d) (c : Claimer F)
    (fence : Nat) (lease : Bool) : (s.claimed orm n c fence d lease).Own := by
  obtain ⟨hok, cur, hcur, hg⟩ := hd
  simp only [Dbmgr.claimed]
  split
  · split
    · refine h.install (fun cur' hcur' => ?_) fence _ _
      cases hcur.symm.trans hcur'
      exact hg.writes.length_le
    · exact h.idle hl
  · split
    · next e he =>
      split
      · next hne =>
        have hdrop := h.drop n
        refine ⟨hdrop.nodes, hdrop.distinct, hdrop.sent, hdrop.written, hdrop.landed,
          fun o ho => ?_⟩
        rcases List.mem_cons.mp ho with rfl | ho
        · have hentry := (hinv.nodes n).cache e he
          have hle := (h.nodes n).found e task i r d he hr hi
          have hlt : e.seen < d.writes.length := by
            obtain ⟨cur', hcur', hv⟩ := hentry.version
            cases hcur.symm.trans hcur'
            have hv' := hok.version
            have ho' := hg.originVersion
            omega
          refine ⟨e.seen, d.writes[e.seen], hentry.loaded, List.getElem?_eq_getElem hlt,
            fun hid => ?_⟩
          have hcw : cur.writes[e.seen]? = some d.writes[e.seen] := by
            obtain ⟨rest, hrest⟩ := hg.writes
            rw [← hrest, List.getElem?_append_left hlt, List.getElem?_eq_getElem hlt]
          exact absurd (h.unlanded hl he hcur hcw hid) (Nat.lt_irrefl _)
        · exact h.superseded o ho
      · exact h.saveDoc hl orm he fence .recover lease
    · exact h.idle hl

theorem Own.answered {task : DbTask F} {reply : DbReply F U} (h : s.Own) (hinv : s.Inv orm)
    (hr : (s.nodes n).running = some (task, i)) (hi : s.requests[i]? = some (r, some reply))
    (lease : Bool) (hl : Landed s.requests (s.nodes n) → lease = true) :
    (s.answered orm n task reply lease).Own := by
  have htask := (hinv.nodes n).running task i hr
  have hreq := hinv.requests _ (List.mem_of_getElem? hi)
  have hsent : ∀ r', Sent s.requests i r' → r = r' := by
    rintro r' ⟨reply', hr'⟩
    cases hi.symm.trans hr'
    rfl
  have hun : reply ≠ .updated true → ¬ Landed s.requests (s.nodes n) := by
    rintro hne ⟨kind, version, revision, j, w, hj, hw⟩
    cases hr.symm.trans hj
    cases hi.symm.trans hw
    exact hne rfl
  have hwait : (∀ kind version revision, task ≠ .saving kind version revision) →
      ¬ Landed s.requests (s.nodes n) := by
    rintro hne ⟨kind, version, revision, j, w, hj, _⟩
    cases hr.symm.trans hj
    exact hne kind version revision rfl
  rw [Dbmgr.answered.eq_def]
  split
  · next c fence attempts d =>
    cases hsent _ htask
    exact h.claimed hinv hr hi (hun (by simp)) (hreq d rfl).1 c fence lease
  · exact h.resolveUnclaimed (hun (by simp)) ..
  · next c fence attempts d =>
    obtain ⟨initial, hs⟩ := htask
    cases hsent _ hs
    split
    · exact h.claimed hinv hr hi (hun (by simp)) (hreq.2 d rfl) c fence lease
    · split
      · exact h.idle (hun (by simp))
      · exact h.claimWithFence (hun (by simp)) ..
  · split
    · exact h.idle (hun (by simp))
    · exact h.claimWithFence (hun (by simp)) ..
  · next kind version revision =>
    obtain ⟨e, w, _, hs, _⟩ := htask
    cases hsent _ hs
    have hlease := hl ⟨kind, version, revision, i, w, hr, hi⟩
    exact hlease ▸ h.acked hinv hr hi
  · next hne => exact h.saved (hun hne) orm ..
  · next hne _ _ _ _ _ => exact h.idle (hwait hne)

theorem Landed.free (hfree : (s.nodes n).running = none) :
    ¬ Landed s.requests (s.nodes n) := by
  rintro ⟨kind, version, revision, i, w, hr, _⟩
  cases hfree.symm.trans hr

theorem Own.edit (h : s.Own) (orm : Orm F U D E) (n : Nat) (a : E) :
    (s.setCache n ((s.nodes n).cache.map fun e => { e with doc := orm.edit a e.doc })).Own := by
  have hn := h.nodes n
  refine h.setNode ⟨fun e he => ?_, fun e d he hd => ?_, fun e task i r d he hr hi => ?_,
    fun e d i w he hd hi hw => ?_⟩ fun e he => ?_
  · obtain ⟨e', he', rfl⟩ := Option.map_eq_some_iff.mp he
    exact hn.id e' he'
  · obtain ⟨e', he', rfl⟩ := Option.map_eq_some_iff.mp he
    exact hn.seen e' d he' hd
  · obtain ⟨e', he', rfl⟩ := Option.map_eq_some_iff.mp he
    exact hn.found e' task i r d he' hr hi
  · obtain ⟨e', he', rfl⟩ := Option.map_eq_some_iff.mp he
    exact hn.own e' d i w he' hd hi hw
  · obtain ⟨e', he', rfl⟩ := Option.map_eq_some_iff.mp he
    exact ⟨e', he', rfl⟩

theorem Own.leave (h : s.Own) (hfree : (s.nodes n).running = none) : (s.setCache n none).Own := by
  have hs : s.setCache n none = s.setNode n {} :=
    congrArg (s.setNode n) (congrArg (DbNode.mk none) hfree)
  exact hs ▸ h.drop n

theorem Own.load (h : s.Own) (hfree : (s.nodes n).running = none) (orm : Orm F U D E)
    (fence : Nat) (create : Bool) (initial : F) (lease still : Bool) :
    (s.load orm n fence create initial lease still).Own := by
  have hl := Landed.free hfree
  simp only [Dbmgr.load]
  split
  · exact h
  · split
    · split
      · exact ⟨h.nodes, h.distinct, h.sent, h.written, h.landed, h.superseded⟩
      · split
        · exact h
        · split
          · apply (h.leave hfree).claimWithFence
            apply Landed.free
            simp only [setCache, setNode_nodes, if_true, hfree]
          · exact h.leave hfree
    · split
      · exact h.claimWithFence hl ..
      · exact h

theorem Own.recover (h : s.Own) (hfree : (s.nodes n).running = none) (orm : Orm F U D E)
    (oldFence newFence : Nat) (lease : Bool) :
    (s.recover orm n oldFence newFence lease).Own := by
  simp only [Dbmgr.recover]
  split
  · split
    · exact h
    · split
      · exact h.leave hfree
      · split
        · exact h
        · exact h.claimWithFence (Landed.free hfree) ..
  · exact h

/-- The node that has sent the update waits for its reply, or the copy it comes from has left. -/
def Awaited (s : Dbmgr F U D) (i : Nat) (w : Write U) : Prop :=
  (s.nodes w.node).cache.any (fun e => e.id = w.entry) = true →
    (s.nodes w.node).running.any (fun r => r.2 = i) = true

instance (s : Dbmgr F U D) (i : Nat) (w : Write U) : Decidable (s.Awaited i w) :=
  inferInstanceAs (Decidable (_ → _))

def landed (s : Dbmgr F U D) (n : Nat) : Bool :=
  match (s.nodes n).running with
  | some (.saving .., i) =>
    match s.requests[i]? with
    | some (.update _, some (.updated matched)) => matched
    | _ => false
  | _ => false

/-- Every update that takes effect is reported to the save it belongs to, and found there under a
valid lease. -/
def Reported (s : Dbmgr F U D) (a : DbAction F E) : Prop :=
  match a with
  | .execute i =>
    match s.requests[i]? with
    | some (.update w, none) =>
      s.docs.any (Document.updatable w.fence w.version) = true → s.Awaited i w
    | _ => True
  | .reply n lease => s.landed n = true → lease = true
  | .callFailed n => s.landed n = false
  | _ => True

instance (s : Dbmgr F U D) (a : DbAction F E) : Decidable (s.Reported a) := by
  unfold Reported
  split
  · split <;> infer_instance
  all_goals infer_instance

end Dbmgr

/-- An operation that has not been executed yet is not what a landed save waits for. -/
theorem Landed.execute {r : DbRequest F U} {reply : DbReply F U} (h : Landed requests x)
    (hi : requests[i]? = some (r, none)) : Landed (requests.set i (r, some reply)) x := by
  obtain ⟨kind, version, revision, j, w, hr, hj⟩ := h
  refine ⟨kind, version, revision, j, w, hr, ?_⟩
  rw [List.getElem?_set_ne, hj]
  rintro rfl
  cases hi.symm.trans hj

theorem EntryOk.document (h : EntryOk orm docs e) : ∃ d, docs = [d] := by
  obtain ⟨d, hd, _⟩ := h.version
  exact ⟨d, hd⟩

/-- An update takes effect, or the updates of the document stay what they are. -/
theorem DbRequest.execute_cases {apply : U → F → F} (h : OneDocument apply docs)
    (r : DbRequest F U) :
    (∃ w d, r = .update w ∧ docs = [d] ∧ d.updatable w.fence w.version = true ∧
      r.execute apply docs = ([d.write apply w], .updated true)) ∨
    (r.execute apply docs).2 ≠ .updated true ∧
      ∀ d, docs = [d] → ∃ d', (r.execute apply docs).1 = [d'] ∧ d'.writes = d.writes := by
  cases r with
  | claim fence =>
    refine .inr ⟨by simp [execute], fun d hd => ?_⟩
    subst hd
    simp only [execute, modifyFirst]
    split
    · exact ⟨_, rfl, rfl⟩
    · exact ⟨d, rfl, rfl⟩
  | create c fence initial =>
    rcases h with rfl | ⟨d, rfl, _⟩
    · exact .inr ⟨by simp [execute], fun d hd => by cases hd⟩
    · exact .inr ⟨by simp [execute], fun d' hd => ⟨d, rfl, by cases hd; rfl⟩⟩
  | find => exact .inr ⟨by simp [execute], fun d hd => ⟨d, hd, rfl⟩⟩
  | update w =>
    rcases h with rfl | ⟨d, rfl, _⟩
    · exact .inr ⟨by simp [execute, modifyFirst], fun d hd => by cases hd⟩
    · simp only [execute, modifyFirst]
      split
      · next hu => exact .inl ⟨w, d, rfl, rfl, hu, rfl⟩
      · exact .inr ⟨by simp, fun d' hd => ⟨d, rfl, by cases hd; rfl⟩⟩

theorem DbRequest.execute_new {apply : U → F → F} (hnil : docs = []) (r : DbRequest F U)
    (h : (r.execute apply docs).1 = [d]) : d.writes = [] := by
  subst hnil
  cases r with
  | claim fence => cases h
  | create c fence initial =>
    cases h
    rfl
  | find => cases h
  | update w => cases h

theorem DbRequest.execute_document {apply : U → F → F} (h : OneDocument apply docs)
    (r : DbRequest F U) (hr : (r.execute apply docs).2 = .document (some d)) :
    (r.execute apply docs).1 = [d] := by
  rcases h with rfl | ⟨d', rfl, _⟩
  · cases r with
    | claim fence => cases hr
    | create c fence initial =>
      cases hr
      rfl
    | find => cases hr
    | update w => cases hr
  · cases r with
    | claim fence =>
      simp only [execute, modifyFirst] at hr ⊢
      split
      · next hc =>
        simp only [hc, if_true, DbReply.document.injEq, Option.some.injEq] at hr
        rw [hr]
      · next hc => simp [hc] at hr
    | create c fence initial =>
      cases hr
      rfl
    | find =>
      cases hr
      rfl
    | update w => cases hr

namespace Dbmgr

theorem landed_of_landed (h : Landed s.requests (s.nodes n)) : s.landed n = true := by
  obtain ⟨kind, version, revision, i, w, hr, hi⟩ := h
  simp only [landed, hr, hi]

theorem Awaited.running (h : s.Awaited i w) (he : (s.nodes w.node).cache = some e)
    (hid : e.id = w.entry) : ∃ task, (s.nodes w.node).running = some (task, i) := by
  have hr := h (by simp [he, hid])
  obtain ⟨p, hp, hi⟩ := Option.any_eq_true _ _ |>.mp hr
  obtain ⟨task, j⟩ := p
  exact ⟨task, hp.trans (by rw [show j = i by simpa using hi])⟩

/-- An update takes effect as long as the node that has sent it waits for its reply. -/
theorem Own.written_of_update (h : s.Own) (hinv : s.Inv orm)
    (hi : s.requests[i]? = some (.update w, none)) (hw : s.Awaited i w)
    (he : (s.nodes n).cache = some e) (hid : w.entry = e.id) :
    w.seen = e.seen ∧ Landed (s.requests.set i (.update w, some (.updated true))) (s.nodes n) := by
  cases (h.sent w none (List.mem_of_getElem? hi)).2 n e he hid.symm
  obtain ⟨task, hr⟩ := hw.running he hid.symm
  have hsent : ∀ r, Sent s.requests i r → r = .update w := by
    rintro r ⟨reply, hr'⟩
    cases hi.symm.trans hr'
    rfl
  have htask := (hinv.nodes w.node).running task i hr
  cases task with
  | claiming c fence attempts => cases hsent _ htask
  | creating c fence attempts =>
    obtain ⟨initial, hs⟩ := htask
    cases hsent _ hs
  | finding c fence attempts => cases hsent _ htask
  | saving kind version revision =>
    obtain ⟨e', w', he', hs, _, hseen, _⟩ := htask
    cases hsent _ hs
    cases he.symm.trans he'
    have hlt := (List.getElem?_eq_some_iff.mp hi).1
    exact ⟨hseen, kind, version, revision, i, w, hr, List.getElem?_set_self hlt⟩

theorem Own.execute {r : DbRequest F U} (h : s.Own) (hinv : s.Inv orm)
    (hi : s.requests[i]? = some (r, none))
    (hrep : ∀ w, r = .update w → s.docs.any (Document.updatable w.fence w.version) = true →
      s.Awaited i w) :
    Own { s with
      docs := (r.execute orm.apply s.docs).1,
      requests := s.requests.set i (r, some (r.execute orm.apply s.docs).2) } := by
  have hgrow : ∀ n e d, (s.nodes n).cache = some e → (r.execute orm.apply s.docs).1 = [d] →
      e.seen ≤ d.writes.length := by
    intro n e d he hd
    obtain ⟨d₀, hd₀⟩ := ((hinv.nodes n).cache e he).document
    obtain ⟨d', hd', hg⟩ := (DbRequest.execute_effect hinv.one r).evolves d₀ hd₀
    cases hd.symm.trans hd'
    exact Nat.le_trans ((h.nodes n).seen e d₀ he hd₀) hg.writes.length_le
  have hfound : ∀ n e task j r' d, (s.nodes n).cache = some e →
      (s.nodes n).running = some (task, j) →
      (s.requests.set i (r, some (r.execute orm.apply s.docs).2))[j]? =
        some (r', some (.document (some d))) → e.seen ≤ d.writes.length := by
    intro n e task j r' d he hr hj
    rw [List.getElem?_set] at hj
    split at hj
    · split at hj
      · have hreply := (Prod.mk.inj (Option.some.inj hj)).2
        exact hgrow n e d he (DbRequest.execute_document hinv.one r (Option.some.inj hreply))
      · cases hj
    · exact (h.nodes n).found e task j r' d he hr hj
  have hsent : ∀ w reply, (.update w, reply) ∈
      s.requests.set i (r, some (r.execute orm.apply s.docs).2) → ∃ reply',
        (.update w, reply') ∈ s.requests := by
    intro w reply hw
    rcases List.mem_or_eq_of_mem_set hw with hw | hw
    · exact ⟨reply, hw⟩
    · exact ⟨none, (Prod.mk.inj hw).1 ▸ List.mem_of_getElem? hi⟩
  rcases DbRequest.execute_cases hinv.one r with
    ⟨w₀, d₀, rfl, hd₀, hu, hr⟩ | ⟨hne, hsame⟩
  · have hmem := List.mem_of_getElem? hi
    have hseen : w₀.seen = d₀.writes.length := by
      obtain ⟨d', hd', hv⟩ := hinv.requests _ hmem
      cases hd₀.symm.trans hd'
      simp only [Document.updatable, Bool.decide_and, Bool.and_eq_true, decide_eq_true_eq] at hu
      rcases hinv.one with ho | ⟨d', ho, hok⟩
      · cases hd₀.symm.trans ho
      · cases hd₀.symm.trans ho
        have := hok.version
        omega
    rw [hr] at hgrow hfound hsent ⊢
    refine ⟨fun n => ⟨(h.nodes n).id, hgrow n, hfound n, fun e d j w he hd hj hw => ?_⟩,
      h.distinct, fun w reply hw => ?_, fun d w hd hw => ?_, fun w d hw hd => ?_, h.superseded⟩
    · cases hd
      rw [Document.write, List.getElem?_append] at hj
      split at hj
      · exact ((h.nodes n).own e d₀ j w he hd₀ hj hw).imp id fun hl => ⟨hl.1, hl.2.execute hi⟩
      · next hlt =>
        rw [List.getElem?_singleton] at hj
        split at hj
        · cases hj
          have hawait := hrep w₀ rfl (by simp [hd₀, hu])
          obtain ⟨hs, hl⟩ := h.written_of_update hinv hi hawait he hw
          exact .inr ⟨by omega, hl⟩
        · cases hj
    · obtain ⟨reply', hw⟩ := hsent w reply hw
      exact h.sent w reply' hw
    · cases hd
      rcases List.mem_append.mp hw with hw | hw
      · exact h.written d₀ w hd₀ hw
      · cases List.mem_singleton.mp hw
        exact (h.sent w₀ none hmem).1
    · cases hd
      rw [Document.write, List.length_append, List.length_singleton]
      rcases List.mem_or_eq_of_mem_set hw with hw | hw
      · exact Nat.lt_succ_of_lt (h.landed w d₀ hw hd₀)
      · cases hw
        omega
  · refine ⟨fun n => ⟨(h.nodes n).id, hgrow n, hfound n, fun e d j w he hd hj hw => ?_⟩,
      h.distinct, fun w reply hw => ?_, fun d w hd hw => ?_, fun w d hw hd => ?_, h.superseded⟩
    · obtain ⟨d₀, hd₀⟩ := ((hinv.nodes n).cache e he).document
      obtain ⟨d', hd', hwrites⟩ := hsame d₀ hd₀
      cases hd.symm.trans hd'
      rw [hwrites] at hj
      exact ((h.nodes n).own e d₀ j w he hd₀ hj hw).imp id fun hl => ⟨hl.1, hl.2.execute hi⟩
    · obtain ⟨reply', hw⟩ := hsent w reply hw
      exact h.sent w reply' hw
    · rcases hinv.one with hnil | ⟨d₀, hd₀, _⟩
      · exact absurd hw (DbRequest.execute_new hnil r hd ▸ List.not_mem_nil)
      · obtain ⟨d', hd', hwrites⟩ := hsame d₀ hd₀
        cases hd.symm.trans hd'
        exact h.written d₀ w hd₀ (hwrites ▸ hw)
    · rcases List.mem_or_eq_of_mem_set hw with hw | hw
      · obtain ⟨d₀, hd₀, _⟩ := hinv.requests _ hw
        obtain ⟨d', hd', hwrites⟩ := hsame d₀ hd₀
        cases hd.symm.trans hd'
        exact hwrites ▸ h.landed w d₀ hw hd₀
      · exact absurd (Option.some.inj (Prod.mk.inj hw).2).symm hne

theorem Own.step (h : s.Own) (hinv : s.Inv orm) (hrep : s.Reported a)
    (ht : s.step orm a = some t) : t.Own := by
  have hfree : ∀ n, ¬ ((s.nodes n).running.isSome = true) → (s.nodes n).running = none :=
    fun n hn => by simpa using hn
  cases a with
  | load n fence create initial lease still =>
    simp only [Dbmgr.step, Option.ite_none_left_eq_some] at ht
    obtain ⟨hn, ht⟩ := ht
    cases ht
    exact h.load (hfree n hn) orm fence create initial lease still
  | save n lease =>
    simp only [Dbmgr.step, Option.ite_none_left_eq_some] at ht
    obtain ⟨hn, ht⟩ := ht
    split at ht
    · next e he =>
      cases ht
      exact h.saveDoc (Landed.free (hfree n hn)) orm he e.fence .save lease
    · cases ht
      exact h
  | unload n lease =>
    simp only [Dbmgr.step, Option.ite_none_left_eq_some] at ht
    obtain ⟨hn, ht⟩ := ht
    split at ht
    · next e he =>
      cases ht
      exact h.saveDoc (Landed.free (hfree n hn)) orm he e.fence .unload lease
    · cases ht
      exact h
  | recover n oldFence newFence lease =>
    simp only [Dbmgr.step, Option.ite_none_left_eq_some] at ht
    obtain ⟨hn, ht⟩ := ht
    cases ht
    exact h.recover (hfree n hn) orm oldFence newFence lease
  | discardClean n fence =>
    simp only [Dbmgr.step, Option.ite_none_left_eq_some] at ht
    obtain ⟨hn, ht⟩ := ht
    split at ht
    · cases ht
      exact h.leave (hfree n hn)
    · cases ht
      exact h
  | discard n fence =>
    simp only [Dbmgr.step, Option.ite_none_left_eq_some] at ht
    obtain ⟨hn, ht⟩ := ht
    split at ht
    · cases ht
      exact h.leave (hfree n hn)
    · cases ht
      exact h
  | edit n a =>
    cases ht
    exact h.edit orm n a
  | execute i =>
    simp only [Dbmgr.step] at ht
    split at ht
    · next request hi =>
      cases ht
      refine h.execute hinv hi fun w hw => ?_
      subst hw
      simpa only [Reported, hi] using hrep
    · cases ht
  | reply n lease =>
    simp only [Dbmgr.step] at ht
    split at ht
    · next task i hr =>
      split at ht
      · next hi =>
        cases ht
        exact h.answered hinv hr hi lease fun hl => hrep (landed_of_landed hl)
      · cases ht
    · cases ht
  | callFailed n =>
    have hl : ¬ Landed s.requests (s.nodes n) := fun hl =>
      Bool.false_ne_true (hrep.symm.trans (landed_of_landed hl))
    simp only [Dbmgr.step] at ht
    split at ht
    · cases ht
      exact h.saved hl ..
    · cases ht
      exact h.idle hl
    · cases ht
  | crash n =>
    cases ht
    exact h.drop n

/-- As long as every update that takes effect is reported to its save, a recovery that answers
`superseded` drops a copy that another one has overtaken. -/
theorem superseded_overtaken (h : (system orm).Reaches Reported s) :
    ∀ r ∈ s.superseded, Overtaken r := by
  have hown : s.Own := h.invariant_with (fun _ => inv_reaches) (fun _ => Own.init)
    fun _ _ _ hinv hs hrep ht => hs.step hinv hrep ht
  exact hown.superseded

/-- Node 1 claims the document and saves a change, before node 0 comes to recover its own. -/
def overtaken : Dbmgr Nat Nat Tally :=
  (system tallyOrm).run Reported blank [.load 0 1 true 3 true true, .execute 0, .reply 0 true,
    .execute 1, .reply 0 true, .edit 0 5, .load 1 2 false 0 true true, .execute 2, .reply 1 true,
    .edit 1 7, .save 1 true, .execute 3, .reply 1 true, .recover 0 1 3 true, .execute 4,
    .reply 0 true] (by decide +kernel)

theorem superseded_overtaken_overtaken : (∀ r ∈ overtaken.superseded, Overtaken r) ∧
    overtaken.superseded.map (fun r => (r.entry.doc.value, r.claimed.fields)) = [(5, 7)] :=
  ⟨superseded_overtaken ((system tallyOrm).run_reaches Reported _ blank_initial
    (by decide +kernel)), by decide +kernel⟩

/-- The lease is lost between an update and its reply; a later change is dropped. -/
def rolledBack : Dbmgr Nat Nat Tally :=
  (system tallyOrm).run anyStep blank [.load 0 1 true 3 true true, .execute 0, .reply 0 true,
    .execute 1, .reply 0 true, .edit 0 5, .save 0 true, .execute 2, .reply 0 false, .edit 0 7,
    .recover 0 1 2 true, .execute 3, .reply 0 true] (by decide +kernel)

theorem superseded_by_itself : ∃ s, (system tallyOrm).Reaches anyStep s ∧
    (∃ r ∈ s.superseded, ¬ Overtaken r ∧ r.entry.doc.value = 7) ∧
    s.docs.map (fun d => (d.fields, d.writes.map Write.node)) = [(5, [0])] := by
  have hown : ∀ r ∈ rolledBack.superseded, ∀ w ∈ r.claimed.writes, w.entry = r.entry.id := by
    decide +kernel
  have hone : ∃ r ∈ rolledBack.superseded, r.entry.doc.value = 7 := by decide +kernel
  obtain ⟨r, hr, hv⟩ := hone
  refine ⟨rolledBack, (system tallyOrm).run_reaches anyStep _ blank_initial (by decide +kernel),
    ⟨r, hr, ?_, hv⟩, by decide +kernel⟩
  rintro ⟨i, w, _, hi, hne⟩
  exact hne (hown r hr w (List.mem_of_getElem? hi))

end Dbmgr

end Skyext
