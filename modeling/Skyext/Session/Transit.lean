import Skyext.Session.Counting

namespace Skyext
set_option autoImplicit true

namespace SessionLink

variable {conf : LinkConf} {s t : SessionLink} {io : SessionIo} {f f' : Frame}

theorem Counting.forward (h : Counting conf s) (hclient : t.client = s.client)
    (hopened : t.opened = s.opened) (hgen : t.gen = s.gen) (hlog : t.log = s.log)
    (hservice : t.service = s.service) (hrunning : t.running = s.running)
    (hqueue : ∀ conn r, .request conn r ∈ t.queue → .request conn r ∈ s.queue)
    (hresults : ∀ r, r ∈ t.results → r ∈ s.results ∨ r.reply.code ≠ some .OK)
    (hgate : ∀ fd, (t.gate fd).isSome → (s.gate fd).isSome)
    (hcarried : ∀ g fd, t.carried g fd = s.carried g fd ∨
      t.gate fd = none ∧ t.carried g fd <+: s.carried g fd)
    (hholds : ∀ fd frame, t.Holds fd frame → s.Holds fd frame ∨ (fd, frame) ∈ s.loginOut)
    (hlogin : ∀ fd frame, (fd, frame) ∈ t.loginOut → (fd, frame) ∈ s.loginOut ∨
      frame.session = none ∧ ∀ reqId reply, frame.content = .response reqId reply →
        reply.code = some .OK → s.Granted reqId reply)
    (hasked : ∀ fd reqId what, t.Asked fd reqId what → s.Asked fd reqId what) :
    Counting conf t := by
  have he := h.entity
  have hnonce : t.nonce = s.nonce := by rw [nonce, hservice, nonce]
  refine h.frame hclient hopened hgen hlog ⟨?_, ?_, ?_, ?_, fun conn r hm => he.queued conn r
    (hqueue conn r hm), ?_⟩ hnonce ?_ hgate hcarried (fun fd frame g hf hs => ?_)
    (fun fd frame hm => ?_) hasked fun reqId reply hg => ?_
  · rw [hservice, hgen, hlog]
    exact he.io
  · rw [hservice]
    exact he.conns
  · rw [hservice, hopened]
    exact he.session
  · rw [hrunning, hnonce]
    exact he.resuming
  · rw [hrunning]
    exact he.running
  · rw [hservice]
    exact fun _ hs => hs
  · refine (hholds fd frame hf).resolve_right fun hm => ?_
    cases (h.loginOut fd frame hm).symm.trans hs
  · exact (hlogin fd frame hm).elim (h.loginOut fd frame) And.left
  · cases hg with
    | result hm ho => exact .result ((hresults _ hm).resolve_right (not_not.mpr ho)) ho
    | loginOut hm hc ho =>
      rcases hlogin _ _ hm with hm | ⟨_, hg⟩
      · exact .loginOut hm hc ho
      · exact hg _ _ hc ho
    | frame hf hs hc ho =>
      rcases hholds _ _ hf with hf | hm
      · exact .frame hf hs hc ho
      · exact .loginOut hm hc ho
    | phase ha ho => exact .phase (hclient ▸ ha) ho

theorem Counting.pass (h : Counting conf s) {up : Fd → List Request} {loginIn : List LoginMsg}
    {jobs : List LoginJob} {queue : List QueueTask} {loginClients loginGates : Fd → Bool}
    {entityIn : List EntityMsg}
    (hqueue : ∀ conn r, .request conn r ∈ queue → .request conn r ∈ s.queue)
    (hasked : ∀ fd reqId what, Asking up loginIn jobs queue s.running fd reqId what →
      s.Asked fd reqId what) :
    Counting conf { s with
      up := up, loginIn := loginIn, jobs := jobs, queue := queue, loginClients := loginClients
      loginGates := loginGates, entityIn := entityIn } :=
  h.forward rfl rfl rfl rfl rfl rfl hqueue (fun _ hm => .inl hm) (fun _ ho => ho)
    (fun _ _ => .inl rfl) (fun _ _ hf => .inl hf) (fun _ _ hm => .inl hm) hasked

theorem mem_update_up {up : Fd → List Request} (hu : up fd = r :: rest)
    (hm : q ∈ Function.update up fd rest fd') : q ∈ up fd' := by
  rw [Function.update_apply] at hm
  split at hm
  · next he =>
    subst he
    rw [hu]
    exact .tail _ hm
  · exact hm

theorem Counting.gateRecv (h : Counting conf s) (ht : step conf s (.gateRecv fd) = some t) :
    Counting conf t := by
  simp only [step] at ht
  split at ht
  · cases ht
  · next r rest hu =>
    cases ht
    have hasked : ∀ loginIn, (∀ fd' q, .msg fd' q ∈ loginIn →
        .msg fd' q ∈ s.loginIn ∨ fd' = fd ∧ q = r) → ∀ fd' reqId what,
        Asking (Function.update s.up fd rest) loginIn s.jobs s.queue s.running fd' reqId what →
        s.Asked fd' reqId what := by
      intro loginIn hin fd' reqId what ha
      cases ha with
      | up hm => exact .up (mem_update_up hu hm)
      | loginIn hm =>
        rcases hin _ _ hm with hm | ⟨rfl, rfl⟩
        · exact .loginIn hm
        · exact .up (hu ▸ List.mem_cons_self)
      | job hm => exact .job hm
      | bind hm => exact .bind hm
      | resume hm => exact .resume hm
      | binding hm => exact .binding hm
      | resuming hm => exact .resuming hm
    split
    · exact h.pass (fun _ _ hm => hm) (hasked _ fun _ _ hm => .inl hm)
    · exact h.pass (fun _ _ hm => hm) (hasked _ fun _ _ hm => .inl hm)
    · refine h.pass (fun _ _ hm => hm) (hasked _ fun fd' q hm => ?_)
      refine (List.mem_append.mp hm).imp id fun hm => ?_
      cases List.mem_singleton.mp hm
      exact ⟨rfl, rfl⟩

theorem pipe_gateEntity (ho : s.entityOut = .push fd frame :: rest) (hg : (s.gate fd).isSome) :
    SessionLink.pipe { s with
      entityOut := rest
      down := Function.update s.down fd (s.down fd ++ [frame]) } fd' = s.pipe fd' := by
  simp only [pipe, ho]
  by_cases hfd : fd' = fd
  · subst hfd
    simp only [hg, if_true, Function.update_self, List.filterMap_cons, EntityCmd.frameFor,
      List.append_assoc, List.singleton_append]
  · simp only [Function.update_of_ne hfd, List.filterMap_cons, EntityCmd.frameFor,
      if_neg (Ne.symm hfd)]

theorem mem_update_down {down : Fd → List Frame}
    (hm : frame' ∈ Function.update down fd (down fd ++ [frame]) fd') :
    frame' ∈ down fd' ∨ fd' = fd ∧ frame' = frame := by
  rw [Function.update_apply] at hm
  split at hm
  · next he =>
    subst he
    exact (List.mem_append.mp hm).imp id fun hm => ⟨rfl, List.mem_singleton.mp hm⟩
  · exact .inl hm

theorem Counting.gateEntity (h : Counting conf s) (ht : step conf s .gateEntity = some t) :
    Counting conf t := by
  simp only [step] at ht
  split at ht
  · cases ht
  · next fd rest ho =>
    cases ht
    refine h.forward rfl rfl rfl rfl rfl rfl (fun _ _ hm => hm) (fun _ hm => .inl hm)
      (fun _ ho => ho) (fun g fd' => .inl ?_) (fun fd' frame hf => .inl ?_)
      (fun _ _ hm => .inl hm) fun _ _ _ ha => ha
    · simp only [carried, pipe, ho, List.filterMap_cons, EntityCmd.frameFor]
    · exact hf.imp id fun hm => ho ▸ .tail _ hm
  · next fd frame rest ho =>
    cases ht
    have htail : ∀ fd' frame', .push fd' frame' ∈ rest → s.Holds fd' frame' :=
      fun fd' frame' hm => .inr (ho ▸ .tail _ hm)
    split
    · next hg =>
      refine h.forward rfl rfl rfl rfl rfl rfl (fun _ _ hm => hm) (fun _ hm => .inl hm)
        (fun _ ho => ho) (fun g fd' => .inl ?_) (fun fd' frame' hf => .inl ?_)
        (fun _ _ hm => .inl hm) fun _ _ _ ha => ha
      · rw [carried, pipe_gateEntity ho hg, carried]
      · rcases hf with hm | hm
        · rcases mem_update_down hm with hm | ⟨rfl, rfl⟩
          · exact .inl hm
          · exact .inr (ho ▸ List.mem_cons_self)
        · exact htail fd' frame' hm
    · next hg =>
      refine h.forward rfl rfl rfl rfl rfl rfl (fun _ _ hm => hm) (fun _ hm => .inl hm)
        (fun _ ho => ho) (fun g fd' => .inl ?_) (fun fd' frame' hf => .inl ?_)
        (fun _ _ hm => .inl hm) fun _ _ _ ha => ha
      · simp only [carried, pipe, ho, List.filterMap_cons, EntityCmd.frameFor]
        by_cases hfd : fd = fd'
        · subst hfd
          rw [if_neg hg, if_neg hg]
        · simp only [if_neg hfd]
      · exact hf.elim .inl (htail fd' frame')

theorem Counting.gateLogin (h : Counting conf s) (ht : step conf s .gateLogin = some t) :
    Counting conf t := by
  simp only [step] at ht
  split at ht
  · cases ht
  · next fd frame rest ho =>
    cases ht
    have hmem : (fd, frame) ∈ s.loginOut := ho ▸ List.mem_cons_self
    have htail : ∀ fd' frame', (fd', frame') ∈ rest → (fd', frame') ∈ s.loginOut :=
      fun fd' frame' hm => ho ▸ .tail _ hm
    split
    · refine h.forward rfl rfl rfl rfl rfl rfl (fun _ _ hm => hm) (fun _ hm => .inl hm)
        (fun _ ho => ho) (fun g fd' => .inl ?_) (fun fd' frame' hf => ?_)
        (fun fd' frame' hm => .inl (htail fd' frame' hm)) fun _ _ _ ha => ha
      · -- the answer of the login service belongs to no session
        have hnone : Frame.contentOf g frame = none := by
          rw [Frame.contentOf, h.loginOut fd frame hmem]
          rfl
        simp only [carried, pipe]
        by_cases hfd : fd' = fd
        · subst hfd
          simp only [Function.update_self, List.filterMap_append, List.filterMap_cons, hnone,
            List.filterMap_nil, List.append_nil]
        · simp only [Function.update_of_ne hfd]
      · rcases hf with hm | hm
        · rcases mem_update_down hm with hm | ⟨rfl, rfl⟩
          · exact .inl (.inl hm)
          · exact .inr hmem
        · exact .inl (.inr hm)
    · exact h.forward rfl rfl rfl rfl rfl rfl (fun _ _ hm => hm) (fun _ hm => .inl hm)
        (fun _ ho => ho) (fun _ _ => .inl rfl) (fun _ _ hf => .inl hf)
        (fun fd' frame' hm => .inl (htail fd' frame' hm)) fun _ _ _ ha => ha

theorem Counting.close (h : Counting conf s) (ht : step conf s (.close fd) = some t) :
    Counting conf t := by
  obtain ⟨bound, hg, rfl⟩ := Option.map_eq_some_iff.mp ht
  have hclosed : Counting conf { s with gate := Function.update s.gate fd none } := by
    refine h.forward rfl rfl rfl rfl rfl rfl (fun _ _ hm => hm) (fun _ hm => .inl hm)
      (fun fd' ho => ?_) (fun g fd' => ?_) (fun _ _ hf => .inl hf) (fun _ _ hm => .inl hm)
      fun _ _ _ ha => ha
    · simp only [Function.update_apply] at ho
      split at ho
      · cases ho
      · exact ho
    · simp only [carried, pipe]
      by_cases hfd : fd' = fd
      · subst hfd
        refine .inr ⟨Function.update_self .., ?_⟩
        simp only [Function.update_self, Option.isSome_none, Bool.false_eq_true, if_false,
          List.append_nil, List.filterMap_append]
        exact List.prefix_append _ _
      · simp only [Function.update_of_ne hfd, true_or]
  simp only
  split
  · exact hclosed.pass (fun _ _ hm => hm) fun _ _ _ ha => ha
  · refine hclosed.pass (fun _ _ hm => hm) fun fd' reqId what ha => ?_
    cases ha with
    | up hm => exact .up hm
    | loginIn hm =>
      exact .loginIn ((List.mem_append.mp hm).resolve_right (by simp))
    | job hm => exact .job hm
    | bind hm => exact .bind hm
    | resume hm => exact .resume hm
    | binding hm => exact .binding hm
    | resuming hm => exact .resuming hm

theorem Counting.bindGate (h : Counting conf s) (fd : Fd) :
    Counting conf { s with
      gate := Function.update s.gate fd ((s.gate fd).map fun _ => true) } := by
  have hopen : ∀ fd', (Function.update s.gate fd ((s.gate fd).map fun _ => true) fd').isSome =
      (s.gate fd').isSome := by
    intro fd'
    rw [Function.update_apply]
    split
    · next he => rw [he, Option.isSome_map]
    · rfl
  refine h.forward rfl rfl rfl rfl rfl rfl (fun _ _ hm => hm) (fun _ hm => .inl hm)
    (fun fd' ho => (hopen fd').symm.trans ho) (fun g fd' => .inl ?_) (fun _ _ hf => .inl hf)
    (fun _ _ hm => .inl hm) fun _ _ _ ha => ha
  simp only [carried, pipe, hopen]

theorem Counting.gateBind (h : Counting conf s) (ht : step conf s .gateBind = some t) :
    Counting conf t := by
  simp only [step] at ht
  split at ht
  · next fd reqId hr =>
    cases ht
    refine (h.bindGate fd).next s.queue _ (fun _ _ hm => hm) (by rintro _ _ ⟨⟩)
      (by rintro _ _ _ _ _ ⟨⟩)
      fun fd' reqId' what ha => ?_
    cases ha with
    | up hm => exact .up hm
    | loginIn hm => exact .loginIn hm
    | job hm => exact .job hm
    | bind hm => exact .bind hm
    | resume hm => exact .resume hm
    | binding hm =>
      cases hm
      exact .binding hr
    | resuming hm => cases hm
  · next fd reqId n recv hr =>
    cases ht
    refine (h.bindGate fd).next s.queue _ (fun _ _ hm => hm) (by rintro _ _ ⟨⟩)
      (fun fd' reqId' n' recv' answer he => ?_) fun fd' reqId' what ha => ?_
    · cases he
      exact h.entity.resuming _ _ _ _ _ hr
    · cases ha with
      | up hm => exact .up hm
      | loginIn hm => exact .loginIn hm
      | job hm => exact .job hm
      | bind hm => exact .bind hm
      | resume hm => exact .resume hm
      | binding hm => cases hm
      | resuming hm =>
        cases hm
        exact .resuming hr
  · cases ht

theorem Counting.loginSend (h : Counting conf s) (fd : Fd)
    (hg : reply.code = some .OK → s.Granted reqId reply) :
    Counting conf (s.loginSend fd reqId reply) := by
  rw [SessionLink.loginSend]
  split
  · refine h.forward rfl rfl rfl rfl rfl rfl (fun _ _ hm => hm) (fun _ hm => .inl hm)
      (fun _ ho => ho) (fun _ _ => .inl rfl) (fun _ _ hf => .inl hf) (fun fd' frame hm => ?_)
      fun _ _ _ ha => ha
    refine (List.mem_append.mp hm).imp id fun hm => ?_
    cases List.mem_singleton.mp hm
    refine ⟨rfl, fun reqId' reply' hc ho => ?_⟩
    cases hc
    exact hg ho
  · exact h

theorem Counting.loginReceive (h : Counting conf s) (hm : s.loginIn = m :: rest) :
    Counting conf (SessionLink.loginReceive conf { s with loginIn := rest } m) := by
  have hhead : m ∈ s.loginIn := hm ▸ List.mem_cons_self
  have hasked : ∀ jobs, (∀ job, job ∈ jobs → job ∈ s.jobs ∨ m = .msg job.fd job.request) →
      ∀ fd reqId what, Asking s.up rest jobs s.queue s.running fd reqId what →
      s.Asked fd reqId what := by
    intro jobs hjobs fd reqId what ha
    cases ha with
    | up hu => exact .up hu
    | loginIn hl => exact .loginIn (hm ▸ .tail _ hl)
    | job hj =>
      rcases hjobs _ hj with hj | rfl
      · exact .job hj
      · exact .loginIn hhead
    | bind hq => exact .bind hq
    | resume hq => exact .resume hq
    | binding hr => exact .binding hr
    | resuming hr => exact .resuming hr
  have hpop : Counting conf { s with loginIn := rest } :=
    h.pass (fun _ _ hq => hq) (hasked _ fun _ hj => .inl hj)
  cases m with
  | opened fd => exact hpop.pass (fun _ _ hq => hq) fun _ _ _ ha => ha
  | disconnect fd => exact hpop.pass (fun _ _ hq => hq) fun _ _ _ ha => ha
  | msg fd r =>
    have hjob : Counting conf { s with loginIn := rest, jobs := s.jobs ++ [⟨fd, r⟩] } := by
      refine h.pass (fun _ _ hq => hq) (hasked _ fun job hj => ?_)
      refine (List.mem_append.mp hj).imp id fun hj => ?_
      cases List.mem_singleton.mp hj
      rfl
    simp only [SessionLink.loginReceive]
    split
    · split
      · exact hjob
      · exact hpop.loginSend fd (by rintro ⟨⟩)
    · split
      · exact hjob
      · exact hpop.loginSend fd (by rintro ⟨⟩)
    · exact hpop.loginSend fd (by rintro ⟨⟩)
    · split
      · exact hpop.loginSend fd (by rintro ⟨⟩)
      · exact hpop

theorem Counting.enqueueJob (h : Counting conf s) (hj : s.jobs[i]? = some job) :
    Counting conf (SessionLink.enqueueJob { s with jobs := s.jobs.eraseIdx i } job) := by
  have hmem : job ∈ s.jobs := List.mem_of_getElem? hj
  have hasked : ∀ queue, (∀ fd reqId, .bind fd reqId ∈ queue → .bind fd reqId ∈ s.queue ∨
        fd = job.fd ∧ reqId = job.request.session ∧ job.request.param.resumption = none) →
      (∀ fd reqId n recv, .resume fd reqId n recv ∈ queue → .resume fd reqId n recv ∈ s.queue ∨
        fd = job.fd ∧ reqId = job.request.session ∧
          job.request.param.resumption = some (n, recv)) →
      ∀ fd reqId what, Asking s.up s.loginIn (s.jobs.eraseIdx i) queue s.running fd reqId what →
        s.Asked fd reqId what := by
    intro queue hbind hresume fd reqId what ha
    cases ha with
    | up hu => exact .up hu
    | loginIn hl => exact .loginIn hl
    | job hj => exact .job (List.mem_of_mem_eraseIdx hj)
    | bind hq =>
      rcases hbind _ _ hq with hq | ⟨rfl, rfl, hp⟩
      · exact .bind hq
      · exact hp ▸ .job hmem
    | resume hq =>
      rcases hresume _ _ _ _ hq with hq | ⟨rfl, rfl, hp⟩
      · exact .resume hq
      · exact hp ▸ .job hmem
    | binding hr => exact .binding hr
    | resuming hr => exact .resuming hr
  have hold : ∀ task' task : QueueTask, task' ∈ s.queue ++ [task] →
      task' ∈ s.queue ∨ task' = task :=
    fun _ _ hm => (List.mem_append.mp hm).imp id List.mem_singleton.mp
  rw [SessionLink.enqueueJob]
  split
  · next n recv hp =>
    refine h.pass (fun conn r hq => (hold _ _ hq).resolve_right (by rintro ⟨⟩))
      (hasked _ (fun fd reqId hq => .inl ((hold _ _ hq).resolve_right (by rintro ⟨⟩)))
        fun fd reqId n' recv' hq => (hold _ _ hq).imp id fun he => ?_)
    cases he
    exact ⟨rfl, rfl, by rw [hp]; rfl⟩
  · next hp =>
    refine h.pass (fun conn r hq => (hold _ _ hq).resolve_right (by rintro ⟨⟩))
      (hasked _ (fun fd reqId hq => (hold _ _ hq).imp id fun he => ?_)
        fun fd reqId n' recv' hq => .inl ((hold _ _ hq).resolve_right (by rintro ⟨⟩)))
    cases he
    refine ⟨rfl, rfl, ?_⟩
    cases hparam : job.request.param with
    | resume n recv => exact absurd hparam (hp n recv)
    | _ => rfl

theorem Counting.loginReply (h : Counting conf s) (hr : s.results[i]? = some res) :
    Counting conf (SessionLink.loginReply { s with results := s.results.eraseIdx i } res) := by
  have hmem : res ∈ s.results := List.mem_of_getElem? hr
  have hsent : Counting conf (s.loginReply res) := by
    rw [SessionLink.loginReply]
    split
    · refine Counting.loginSend ?_ res.fd fun ho => .result hmem ho
      exact h.pass (fun _ _ hq => hq) fun _ _ _ ha => ha
    · exact h.loginSend res.fd fun ho => .result hmem ho
  have heq : SessionLink.loginReply { s with results := s.results.eraseIdx i } res =
      { s.loginReply res with results := s.results.eraseIdx i } := by
    simp only [SessionLink.loginReply, SessionLink.loginSend]
    split <;> split <;> rfl
  have hresults : (s.loginReply res).results = s.results := by
    simp only [SessionLink.loginReply, SessionLink.loginSend]
    split <;> split <;> rfl
  rw [heq]
  exact hsent.forward rfl rfl rfl rfl rfl rfl (fun _ _ hq => hq)
    (fun r hm => .inl (hresults ▸ List.mem_of_mem_eraseIdx hm)) (fun _ ho => ho)
    (fun _ _ => .inl rfl) (fun _ _ hf => .inl hf) (fun _ _ hm => .inl hm) fun _ _ _ ha => ha

end SessionLink

end Skyext
