import Skyext.Session.Replay

namespace Skyext
set_option autoImplicit true

namespace SessionService

/-- Other coroutines push while a resume is suspended in the gate. -/
def pushAll (conf : SessionConf) (s : SessionService) (e : EntityId) (packs : List Pack) :
    SessionService :=
  packs.foldl (fun s pack => (s.recordAndSend conf e pack).1) s

/-- What a resume request leaves behind: the answer, the commands `resume` and `replay` sent,
and what `replay` returned. -/
structure ResumeRun where
  result : ResumeResult
  written : List GateCmd
  replayed : Bool

/-- `resume_session` for one entity: the checks, the call to the gate during which `others` are
pushed and which answers `bound`, and the replay. -/
def resumeSession (conf : SessionConf) (s : SessionService) (e : EntityId) (key : Key)
    (credential : Option Nonce) (recv : Option Int) (others : List Pack) (bound : Bool)
    (nonce : Nonce) (now : Nat) : ResumeRun :=
  match SessionIo.resumeCheck (s.io e) credential recv with
  | .OK =>
    let (t, cmds, result) := (s.pushAll conf e others).resume key e bound recv nonce now
    if result.code = .OK then
      ⟨result, cmds ++ (t.replay e).2.1, (t.replay e).2.2⟩
    else ⟨result, cmds, false⟩
  | code => ⟨⟨code, none, none⟩, [], false⟩

def pushedTo (key : Key) (cmds : List GateCmd) : List Pack :=
  cmds.filterMap fun
    | .push k pack => if k = key then some pack else none
    | .kick _ => none

/-- Either the client is told OK and its new connection gets exactly the packages `missing`, or
it is refused, or its connection is kicked. -/
def ResumeRun.Lossless (r : ResumeRun) (key : Key) (missing : List Pack) : Prop :=
  if r.result.code = .OK ∧ r.replayed = true then pushedTo key r.written = missing
  else r.result.code ≠ .OK ∨ .kick key ∈ r.written

instance (r : ResumeRun) (key : Key) (missing : List Pack) : Decidable (r.Lossless key missing) :=
  inferInstanceAs (Decidable (if r.result.code = .OK ∧ r.replayed = true then
    pushedTo key r.written = missing else r.result.code ≠ .OK ∨ .kick key ∈ r.written))

end SessionService

namespace SessionIo

/-- The replay buffer has room for these packages on top of those it holds. -/
def Fits (conf : SessionConf) (io : SessionIo) (packs : List Pack) : Prop :=
  io.outBytes + Window.weight Pack.size packs ≤ conf.replayBytes ∧
    io.sent - io.acked + packs.length ≤ conf.replayPackets

instance (conf : SessionConf) (io : SessionIo) (packs : List Pack) :
    Decidable (io.Fits conf packs) := inferInstanceAs (Decidable (_ ∧ _))

variable {conf : SessionConf} {io : SessionIo} {log packs : List Pack} {pack : Pack}

def recordAll (conf : SessionConf) (io : SessionIo) (packs : List Pack) : SessionIo :=
  packs.foldl (record conf) io

theorem Wf.recordAll (h : Wf conf io log) (packs : List Pack) :
    Wf conf (io.recordAll conf packs) (log ++ packs) := by
  induction packs generalizing io log with
  | nil => exact (List.append_nil log).symm ▸ h
  | cons pack packs ih =>
    have hw := ih (h.record pack)
    rw [List.append_assoc] at hw
    exact hw

theorem fits_nil (h : Wf conf io log) : Fits conf io [] :=
  ⟨(Int.add_zero _).symm ▸ h.maxBytes, h.maxPackets⟩

theorem fits_cons (h : Wf conf io log) :
    Fits conf io (pack :: packs) ↔ Fits conf (io.append pack) packs := by
  have hle := h.acked
  simp only [Fits, append, Window.weight_cons, List.length_cons]
  omega

theorem fits_append (h : Fits conf (io.append pack) packs) :
    (io.append pack).overflows conf = false := by
  simp only [Fits] at h
  simp only [overflows, Bool.or_eq_false_iff, decide_eq_false_iff_not, Int.not_lt, Nat.not_lt]
  omega

theorem acked_le_record (h : Wf conf io log) (pack : Pack) :
    io.acked ≤ (io.record conf pack).acked := by
  have hle := h.acked
  rw [record]
  split
  · exact Nat.le_succ_of_le hle
  · exact Nat.le_refl _

theorem acked_le_recordAll (h : Wf conf io log) (packs : List Pack) :
    io.acked ≤ (io.recordAll conf packs).acked := by
  induction packs generalizing io log with
  | nil => exact Nat.le_refl _
  | cons pack packs ih => exact Nat.le_trans (acked_le_record h pack) (ih (h.record pack))

theorem acked_recordAll_of_fits (h : Wf conf io log) (hf : Fits conf io packs) :
    (io.recordAll conf packs).acked = io.acked := by
  induction packs generalizing io log with
  | nil => rfl
  | cons pack packs ih =>
    have hf := (fits_cons h).mp hf
    have ho := fits_append hf
    have hr : io.record conf pack = io.append pack := by
      rw [record, ho]
      rfl
    rw [recordAll, List.foldl_cons, hr]
    exact ih (h.append ho) hf

/-- A push that does not fit drops everything recorded before it. -/
theorem sent_lt_acked_recordAll (h : Wf conf io log) (hf : ¬ Fits conf io packs) :
    io.sent < (io.recordAll conf packs).acked := by
  induction packs generalizing io log with
  | nil => exact absurd (fits_nil h) hf
  | cons pack packs ih =>
    have hw := h.record pack
    rw [recordAll, List.foldl_cons]
    cases ho : (io.append pack).overflows conf with
    | false =>
      have hr : io.record conf pack = io.append pack := by
        rw [record, ho]
        rfl
      rw [hr] at hw ⊢
      exact Nat.lt_of_succ_lt (ih hw fun hf' => hf ((fits_cons h).mpr hf'))
    | true =>
      have hr : (io.record conf pack).acked = io.sent + 1 := by
        rw [record, ho]
        rfl
      exact Nat.lt_of_lt_of_le (hr ▸ Nat.lt_succ_self _) (acked_le_recordAll hw packs)

theorem resumeCheck_spec (h : resumeCheck (some io) credential recv = .OK) :
    io.unresumable = false ∧ credential = some io.nonce ∧
    io.outOfRange (recv.getD 0) = false := by
  simp only [resumeCheck] at h
  split at h
  · cases h
  · split at h
    · cases h
    · split at h
      · cases h
      · simp_all

/-- What a resume replays is all the client misses exactly when nothing was dropped. -/
theorem Wf.resumed_drop_iff {recv : Option Int} (hw : Wf conf io log)
    (hc : resumeCheck (some io) credential recv = .OK) (nonce : Nonce) (now : Nat) :
    (log ++ packs).drop ((io.recordAll conf packs).resumed recv nonce now).acked =
      (log ++ packs).drop (recv.getD 0).toNat ↔ io.Fits conf packs := by
  obtain ⟨hlo, hhi⟩ := inRange_spec (resumeCheck_spec hc).2.2
  have hw' := hw.recordAll packs
  have hlen := hw.sent
  have hsent := hw'.sent
  have hacked := hw'.acked
  rw [List.length_append] at hsent
  constructor
  · intro he
    by_contra hf
    have hlt := sent_lt_acked_recordAll hw hf
    have hout : (io.recordAll conf packs).outOfRange (recv.getD 0) = true := by
      simp only [outOfRange, Bool.or_eq_true, decide_eq_true_eq]
      omega
    have hkeep : ((io.recordAll conf packs).resumed recv nonce now).acked =
        (io.recordAll conf packs).acked := by
      have hout : SessionIo.outOfRange { io.recordAll conf packs with replaying := true }
          (recv.getD 0) = true := hout
      rw [SessionIo.resumed, SessionIo.ack, if_pos hout]
    have hl := congrArg List.length he
    rw [hkeep, List.length_drop, List.length_drop, List.length_append] at hl
    omega
  · intro hf
    have ha := acked_recordAll_of_fits hw hf
    have hin : SessionIo.outOfRange { io.recordAll conf packs with replaying := true }
        (recv.getD 0) = false := by
      simp only [outOfRange, Bool.or_eq_false_iff, decide_eq_false_iff_not]
      omega
    have hreplaying : Wf conf { io.recordAll conf packs with replaying := true } _ :=
      hw'.congr rfl rfl rfl rfl
    have hmoved := (hreplaying.ack_inRange recv hin).2
    rw [SessionIo.resumed, hmoved]

end SessionIo

namespace SessionService

variable {conf : SessionConf} {s : SessionService} {log others : List Pack} {io : SessionIo}

theorem pushAll_io (hio : s.io e = some io) (packs : List Pack) :
    (s.pushAll conf e packs).io e = some (io.recordAll conf packs) := by
  induction packs generalizing s io with
  | nil => exact hio
  | cons pack packs ih =>
    refine ih ?_
    simp only [recordAndSend, hio]
    split <;> exact Function.update_self ..

theorem pushedTo_push (key : Key) (packs : List Pack) :
    pushedTo key (packs.map (.push key)) = packs := by
  induction packs with
  | nil => rfl
  | cons pack packs ih =>
    simp only [pushedTo, List.map_cons, List.filterMap_cons, if_pos] at ih ⊢
    rw [ih]

theorem retire_spec (s : SessionService) (old : Option Conn) (key : Key) :
    (s.retire old key).1.io = s.io ∧ (s.retire old key).1.session = s.session ∧
    ∀ packs, pushedTo key ((s.retire old key).2 ++ packs) = pushedTo key packs := by
  cases old with
  | none => exact ⟨rfl, rfl, fun _ => rfl⟩
  | some conn =>
    simp only [retire]
    split <;> exact ⟨rfl, rfl, fun _ => rfl⟩

/-- Once the gate has bound the connection a resume answers OK and the replay writes the whole
buffer. -/
theorem resume_replay {t : SessionService} (key : Key) (hio : t.io e = some io)
    (hw : (io.resumed recv nonce now).Wf conf log) :
    (t.resume key e true recv nonce now).2.2.code = .OK ∧
    pushedTo key ((t.resume key e true recv nonce now).2.1 ++
      ((t.resume key e true recv nonce now).1.replay e).2.1) =
        log.drop (io.resumed recv nonce now).acked ∧
    ((t.resume key e true recv nonce now).1.replay e).2.2 = true := by
  obtain ⟨_, hsession, hpushed⟩ := (t.installConn key e).retire_spec (t.session e) key
  have hconn : (t.installConn key e).session e = some ⟨t.serials, key, e⟩ :=
    Function.update_self ..
  simp only [resume, hio, replay, setIo, Function.update_self, hsession, hconn, hw.replayed,
    hpushed, if_true, List.append_nil, pushedTo_push, and_self]

theorem ResumeRun.lossless_of_refused {r : ResumeRun} (h : r.result.code ≠ .OK) :
    r.Lossless key missing := by
  rw [Lossless, if_neg fun hc => h hc.1]
  exact .inl h

theorem resumeSession_refused
    (h : SessionIo.resumeCheck (s.io e) credential recv ≠ .OK) :
    (s.resumeSession conf e key credential recv others bound nonce now).result.code ≠ .OK := by
  rw [resumeSession]
  split
  · next hc => exact absurd hc h
  · exact h

theorem resume_unbound (t : SessionService) :
    t.resume key e false recv nonce now = (t, [], ⟨.SESSION_CLOSED, none, none⟩) := by
  cases hio : t.io e <;> simp only [resume, hio]

theorem resumeSession_unbound :
    (s.resumeSession conf e key credential recv others false nonce now).result.code ≠ .OK := by
  rw [resumeSession]
  split
  · simp only [resume_unbound]
    rintro ⟨⟩
  · next hc => exact hc

theorem resumeSession_bound (hio : s.io e = some io) (hw : io.Wf conf log)
    (hc : SessionIo.resumeCheck (s.io e) credential recv = .OK) :
    (s.resumeSession conf e key credential recv others true nonce now).Lossless key missing ↔
      (log ++ others).drop ((io.recordAll conf others).resumed recv nonce now).acked = missing := by
  obtain ⟨hok, hpushed, hreplayed⟩ := resume_replay key (pushAll_io hio others)
    ((hw.recordAll others).resumed recv nonce now)
  rw [ResumeRun.Lossless]
  simp only [resumeSession, hc, hok, hreplayed, hpushed, and_self, if_true]

/-- A resume loses nothing exactly when it is refused or the packages pushed while it was
suspended fit the replay buffer. -/
theorem resume_lossless_iff (h : ∀ io, s.io e = some io → SessionIo.Run conf io log) :
    (s.resumeSession conf e key credential recv others bound nonce now).Lossless key
        ((log ++ others).drop (recv.getD 0).toNat) ↔
      SessionIo.resumeCheck (s.io e) credential recv ≠ .OK ∨ bound = false ∨
        ∀ io, s.io e = some io → io.Fits conf others := by
  by_cases hc : SessionIo.resumeCheck (s.io e) credential recv = .OK
  · cases bound with
    | false => simp [ResumeRun.lossless_of_refused resumeSession_unbound]
    | true =>
      cases hio : s.io e with
      | none => rw [hio] at hc; cases hc
      | some io =>
        have hw := (h io hio).wf
        rw [resumeSession_bound hio hw hc]
        rw [hio] at hc
        simp only [hc, ne_eq, not_true_eq_false, false_or, Bool.true_eq_false, Option.some.injEq,
          forall_eq']
        exact hw.resumed_drop_iff hc nonce now
  · simp [ResumeRun.lossless_of_refused (resumeSession_refused hc), hc]

def loggedIn : SessionService := (fresh.bind ⟨0, 1⟩ 0 true ⟨7, 0⟩ 0).1

theorem loggedIn_run (conf : SessionConf) (h : loggedIn.io 0 = some io) :
    SessionIo.Run conf io [] := by
  cases h
  exact .new ⟨7, 0⟩ 0

theorem resume_lossless_short_push :
    (loggedIn.resumeSession .standard 0 ⟨0, 2⟩ (some ⟨7, 0⟩) (some 0) [⟨.push 0, 10⟩] true ⟨7, 1⟩
      0).Lossless ⟨0, 2⟩ [⟨.push 0, 10⟩] := by
  apply (resume_lossless_iff fun io h => loggedIn_run .standard h).mpr
  refine .inr (.inr fun io h => ?_)
  cases h
  decide

/-- A push larger than the replay buffer arrives while the resume is suspended. -/
theorem resume_loses_long_push :
    ¬ ∀ (conf : SessionConf) (s : SessionService) (e : EntityId) (key : Key)
      (credential : Option Nonce) (recv : Option Int) (log others : List Pack) (bound : Bool)
      (nonce : Nonce) (now : Nat), (∀ io, s.io e = some io → SessionIo.Run conf io log) →
      (s.resumeSession conf e key credential recv others bound nonce now).Lossless key
        ((log ++ others).drop (recv.getD 0).toNat) := by
  intro h
  have hl := h .standard loggedIn 0 ⟨0, 2⟩ (some ⟨7, 0⟩) (some 0) [] [⟨.push 0, 32769⟩] true
    ⟨7, 1⟩ 0
    fun io h => loggedIn_run .standard h
  exact absurd hl (by decide)

end SessionService

end Skyext
