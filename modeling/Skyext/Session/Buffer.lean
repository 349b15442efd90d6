import Skyext.Lib.Machine
import Skyext.Session.Resume

namespace Skyext
set_option autoImplicit true

open Machine

/-- A `resume` past its checks, suspended in its call to the gate; `late` says that the session
was already marked when it was called. -/
structure PendingResume where
  recv : Option Int
  late : Bool

/-- What a `resume` returned. -/
structure ResumeAnswer where
  code : ErrCode
  late : Bool
  deriving DecidableEq

/-- One session with every package recorded in it and the resumes called on it. -/
structure BufferedSession where
  io : SessionIo
  log : List Pack
  pending : List PendingResume
  answers : List ResumeAnswer

inductive BufferAction
  | record (pack : Pack)
  | ack (recv : Option Int)
  | resume (nonce : Option Nonce) (recv : Option Int)
  | gateAnswer (k : Nat) (bound : Bool) (nonce : Nonce) (now : Nat)
  | replay
  | seen (now : Nat)
  | cache (reqId : Nat) (pack : Pack) (name : Proto)

namespace BufferedSession

def step (conf : SessionConf) (s : BufferedSession) : BufferAction → Option BufferedSession
  | .record pack => some { s with io := s.io.record conf pack, log := s.log ++ [pack] }
  | .ack recv => some { s with io := s.io.ack recv }
  | .resume nonce recv =>
    match SessionIo.resumeCheck (some s.io) nonce recv with
    | .OK => some { s with pending := s.pending ++ [⟨recv, s.io.unresumable⟩] }
    | code => some { s with answers := ⟨code, s.io.unresumable⟩ :: s.answers }
  | .gateAnswer k bound nonce now =>
    (s.pending[k]?).map fun call =>
      let t := { s with pending := s.pending.eraseIdx k }
      if bound then
        { t with io := s.io.resumed call.recv nonce now, answers := ⟨.OK, call.late⟩ :: s.answers }
      else { t with answers := ⟨.SESSION_CLOSED, call.late⟩ :: s.answers }
  | .replay => some { s with io := { s.io with replaying := false } }
  | .seen now => some { s with io := { s.io with lastSeen := now } }
  | .cache reqId pack name => some { s with io := (s.io.cacheResponse conf reqId pack name).1 }

def start (nonce : Nonce) (now : Nat) : BufferedSession := ⟨.new nonce now, [], [], []⟩

def system (conf : SessionConf) : System BufferedSession BufferAction :=
  ⟨fun s => ∃ nonce now, s = start nonce now, step conf⟩

end BufferedSession

namespace SessionIo

variable {conf : SessionConf} {io : SessionIo} {log : List Pack}

/-- What no operation takes back. -/
structure Grows (io io' : SessionIo) : Prop where
  sent : io.sent ≤ io'.sent
  acked : io.acked ≤ io'.acked
  marked : io.unresumable = true → io'.unresumable = true

theorem Grows.refl (io : SessionIo) : Grows io io := ⟨Nat.le_refl _, Nat.le_refl _, id⟩

theorem Grows.record (hw : Wf conf io log) (pack : Pack) : Grows io (io.record conf pack) := by
  refine ⟨?_, acked_le_record hw pack, ?_⟩
  · rw [SessionIo.record]
    split <;> exact Nat.le_succ _
  · intro hm
    rw [SessionIo.record]
    split
    · rfl
    · exact hm

theorem trim_frame (io : SessionIo) (n : Nat) :
    (io.trim n).sent = io.sent ∧ (io.trim n).unresumable = io.unresumable := by
  induction n generalizing io with
  | zero => exact ⟨rfl, rfl⟩
  | succ n ih =>
    obtain ⟨hs, hu⟩ := ih { (io.forget (io.acked + 1)) with acked := io.acked + 1 }
    rw [trim, hs, hu, forget]
    split <;> exact ⟨rfl, rfl⟩

theorem Grows.ack (hw : Wf conf io log) (recv : Option Int) : Grows io (io.ack recv) := by
  cases hr : io.outOfRange (recv.getD 0) with
  | true =>
    rw [SessionIo.ack, hr]
    exact ⟨Nat.le_refl _, Nat.le_refl _, fun _ => rfl⟩
  | false =>
    have hrange := inRange_spec hr
    have hacked := (hw.ack_inRange recv hr).2
    have hlo : io.acked ≤ (io.ack recv).acked := by omega
    rw [SessionIo.ack, hr] at hlo ⊢
    obtain ⟨hs, hu⟩ := io.trim_frame ((recv.getD 0).toNat - io.acked)
    exact ⟨Nat.le_of_eq hs.symm, hlo, fun hm => hu.trans hm⟩

theorem Grows.resumed (hw : Wf conf io log) (recv : Option Int) (nonce : Nonce) (now : Nat) :
    Grows io (io.resumed recv nonce now) := by
  have hreplaying : Wf conf { io with replaying := true } log := hw.congr rfl rfl rfl rfl
  obtain ⟨hs, ha, hm⟩ := Grows.ack hreplaying recv
  exact ⟨hs, ha, hm⟩

theorem shrinkCache_marked (conf : SessionConf) (n : Nat) (io : SessionIo) :
    (shrinkCache conf n io).1.unresumable = io.unresumable := by
  induction n generalizing io with
  | zero => rfl
  | succ n ih =>
    rw [shrinkCache]
    split
    · split
      · next io' he =>
        rw [ih io']
        rw [evictOldestResponse] at he
        split at he
        · cases he
        · obtain ⟨entry, _, rfl⟩ := Option.map_eq_some_iff.mp he
          rfl
      · rfl
    · rfl

theorem Grows.cacheResponse (conf : SessionConf) (io : SessionIo) (reqId : Nat) (pack : Pack)
    (name : Proto) : Grows io (io.cacheResponse conf reqId pack name).1 := by
  obtain ⟨hs, ha, _, _⟩ := shrinkCache_frame conf (io.respOrder ++ [reqId]).length
    { io with
      respOrder := io.respOrder ++ [reqId]
      respCache := Function.update io.respCache reqId (some ⟨pack, name⟩)
      respBytes := io.respBytes + pack.size }
  have hm := shrinkCache_marked conf (io.respOrder ++ [reqId]).length
    { io with
      respOrder := io.respOrder ++ [reqId]
      respCache := Function.update io.respCache reqId (some ⟨pack, name⟩)
      respBytes := io.respBytes + pack.size }
  exact ⟨Nat.le_of_eq hs.symm, Nat.le_of_eq ha.symm, fun h => hm.trans h⟩

theorem resumeCheck_marked (h : io.unresumable = true) (nonce : Option Nonce)
    (recv : Option Int) : resumeCheck (some io) nonce recv = .RESUME_UNAVAILABLE := by
  simp only [resumeCheck, h, if_true]

/-- The replay buffer holds exactly the packages recorded after the acknowledged ones, each under
its number, within the limits. -/
structure Buffered (conf : SessionConf) (io : SessionIo) (log : List Pack) : Prop where
  acked : io.acked ≤ io.sent
  keys : ∀ seq, (io.outBuf seq).isSome = true ↔ io.acked < seq ∧ seq ≤ io.sent
  bytes : io.outBytes = Window.weight Pack.size
    ((List.range (io.sent - io.acked)).filterMap fun k => io.outBuf (io.acked + 1 + k))
  maxBytes : io.outBytes ≤ conf.replayBytes
  maxPackets : io.sent - io.acked ≤ conf.replayPackets
  sent : io.sent = log.length
  packs : ∀ seq pack, io.outBuf seq = some pack → log[seq - 1]? = some pack

theorem Wf.buffered (hw : Wf conf io log) : io.Buffered conf log := by
  have hlen := hw.sent
  refine ⟨hw.acked, fun seq => ?_, ?_, hw.maxBytes, hw.maxPackets, hw.sent, fun seq pack hp => ?_⟩
  · rw [hw.covers seq]
    split
    · rw [Option.isSome_iff_ne_none, Ne, List.getElem?_eq_none_iff]
      omega
    · simp only [Option.isSome_none, Bool.false_eq_true, false_iff]
      omega
  · rw [hw.bytes, hw.sent, hw.covers.entries]
  · rw [hw.covers seq] at hp
    exact (Option.ite_none_right_eq_some.mp hp).2

end SessionIo

namespace BufferedSession

variable {conf : SessionConf} {s t : BufferedSession}

/-- The buffer is in order, and no resume called on a marked session is pending or was answered
OK. -/
structure Inv (conf : SessionConf) (s : BufferedSession) : Prop where
  run : SessionIo.Run conf s.io s.log
  pending : ∀ c ∈ s.pending, c.late = false
  answers : ∀ a ∈ s.answers, a.late = true → a.code ≠ .OK

theorem Inv.init (h : (system conf).init s) : s.Inv conf := by
  obtain ⟨nonce, now, rfl⟩ := h
  exact ⟨.new nonce now, fun _ hc => (by cases hc), fun _ ha => (by cases ha)⟩

theorem Inv.resume (h : s.Inv conf) (nonce : Option Nonce) (recv : Option Int)
    (ht : s.step conf (.resume nonce recv) = some t) : t.Inv conf := by
  simp only [step] at ht
  split at ht
  · next hc =>
    cases ht
    refine ⟨h.run, fun c hm => ?_, h.answers⟩
    rcases List.mem_append.mp hm with hm | hm
    · exact h.pending c hm
    · cases List.mem_singleton.mp hm
      exact (SessionIo.resumeCheck_spec hc).1
  · next hc =>
    cases ht
    refine ⟨h.run, h.pending, fun a hm hl => ?_⟩
    rcases List.mem_cons.mp hm with rfl | hm
    · exact hc
    · exact h.answers a hm hl

theorem Inv.gateAnswer (h : s.Inv conf) (k : Nat) (bound : Bool) (nonce : Nonce) (now : Nat)
    (ht : s.step conf (.gateAnswer k bound nonce now) = some t) : t.Inv conf := by
  obtain ⟨call, hk, ht⟩ := Option.map_eq_some_iff.mp ht
  have hcall := h.pending call (List.mem_of_getElem? hk)
  have hpending : ∀ c ∈ s.pending.eraseIdx k, c.late = false := fun c hc =>
    h.pending c (List.mem_of_mem_eraseIdx hc)
  have hanswers : ∀ code, ∀ a ∈ (⟨code, call.late⟩ :: s.answers : List ResumeAnswer),
      a.late = true → a.code ≠ .OK := by
    intro code a ha hl
    rcases List.mem_cons.mp ha with rfl | ha
    · exact absurd (hcall.symm.trans hl) (by decide)
    · exact h.answers a ha hl
  simp only at ht
  split at ht
  · cases ht
    exact ⟨h.run.resumed call.recv nonce now, hpending, hanswers _⟩
  · cases ht
    exact ⟨h.run, hpending, hanswers _⟩

theorem Inv.step (h : s.Inv conf) (a : BufferAction) (ht : s.step conf a = some t) :
    t.Inv conf := by
  cases a with
  | record pack =>
    cases ht
    exact ⟨h.run.record pack, h.pending, h.answers⟩
  | ack recv =>
    cases ht
    exact ⟨h.run.ack recv, h.pending, h.answers⟩
  | resume nonce recv => exact h.resume nonce recv ht
  | gateAnswer k bound nonce now => exact h.gateAnswer k bound nonce now ht
  | replay =>
    cases ht
    exact ⟨h.run.replayed, h.pending, h.answers⟩
  | seen now =>
    cases ht
    exact ⟨h.run.seen now, h.pending, h.answers⟩
  | cache reqId pack name =>
    cases ht
    exact ⟨h.run.cache reqId pack name, h.pending, h.answers⟩

theorem inv_reaches (h : (system conf).Reaches anyStep s) : s.Inv conf :=
  h.invariant (fun _ hs => .init hs) fun _ a _ hi _ ht => hi.step a ht

theorem grows_step (hw : s.io.Wf conf s.log) (a : BufferAction) (ht : s.step conf a = some t) :
    s.io.Grows t.io := by
  cases a with
  | record pack =>
    cases ht
    exact .record hw pack
  | ack recv =>
    cases ht
    exact .ack hw recv
  | resume nonce recv =>
    simp only [BufferedSession.step] at ht
    split at ht <;> cases ht <;> exact .refl _
  | gateAnswer k bound nonce now =>
    obtain ⟨call, _, ht⟩ := Option.map_eq_some_iff.mp ht
    simp only at ht
    split at ht
    · cases ht
      exact .resumed hw call.recv nonce now
    · cases ht
      exact .refl _
  | replay =>
    cases ht
    exact ⟨Nat.le_refl _, Nat.le_refl _, id⟩
  | seen now =>
    cases ht
    exact ⟨Nat.le_refl _, Nat.le_refl _, id⟩
  | cache reqId pack name =>
    cases ht
    exact .cacheResponse conf s.io reqId pack name

/-- The replay buffer is in order after any calls on one session, its counters never fall, and a
marked session is never resumed again. -/
structure Sound (conf : SessionConf) (s : BufferedSession) : Prop where
  buffered : s.io.Buffered conf s.log
  grows : ∀ a t, s.step conf a = some t → s.io.Grows t.io
  refused : ∀ a ∈ s.answers, a.late = true → a.code ≠ .OK

theorem buffer_sound (h : (system conf).Reaches anyStep s) : s.Sound conf := by
  have hi := inv_reaches h
  have hw := hi.run.wf
  exact ⟨hw.buffered, fun a _ ht => grows_step hw a ht, hi.answers⟩

/-- A resume with a replay, a package that overflows the buffer, and another resume. -/
def overflowed : BufferedSession :=
  (system .standard).run anyStep (start ⟨7, 0⟩ 0)
    [.record ⟨.push 0, 10⟩, .resume (some ⟨7, 0⟩) (some 0), .record ⟨.push 1, 20⟩,
      .gateAnswer 0 true ⟨7, 1⟩ 3, .replay, .record ⟨.push 2, 40000⟩,
      .resume (some ⟨7, 1⟩) (some 3)] (by decide +kernel)

theorem buffer_sound_overflowed : overflowed.Sound .standard ∧
    overflowed.answers = [⟨.RESUME_UNAVAILABLE, true⟩, ⟨.OK, false⟩] :=
  ⟨buffer_sound ((system .standard).run_reaches anyStep _ ⟨_, _, rfl⟩ (by decide +kernel)),
    by decide +kernel⟩

end BufferedSession

end Skyext
