import Skyext.Session.Service

namespace Skyext
set_option autoImplicit true

namespace SessionIo

/-- The sessions the module makes, each with every package recorded since it was created. -/
inductive Run (conf : SessionConf) : SessionIo → List Pack → Prop
  | new (nonce : Nonce) (now : Nat) : Run conf (.new nonce now) []
  | record (pack : Pack) : Run conf io log → Run conf (io.record conf pack) (log ++ [pack])
  | ack (recv : Option Int) : Run conf io log → Run conf (io.ack recv) log
  | resumed (recv : Option Int) (nonce : Nonce) (now : Nat) : Run conf io log →
      Run conf (io.resumed recv nonce now) log
  | replayed : Run conf io log → Run conf { io with replaying := false } log
  | seen (now : Nat) : Run conf io log → Run conf { io with lastSeen := now } log
  | cache (reqId : Nat) (pack : Pack) (name : Proto) : Run conf io log →
      Run conf (io.cacheResponse conf reqId pack name).1 log

variable {conf : SessionConf} {io io' : SessionIo} {log : List Pack} {pack : Pack}
  {recv : Int}

/-- The replay buffer is the part of the log the client has not acknowledged, within limits. -/
structure Wf (conf : SessionConf) (io : SessionIo) (log : List Pack) : Prop where
  sent : io.sent = log.length
  acked : io.acked ≤ io.sent
  covers : Window.Covers log io.acked io.outBuf
  bytes : io.outBytes = Window.weight Pack.size (log.drop io.acked)
  maxBytes : io.outBytes ≤ conf.replayBytes
  maxPackets : io.sent - io.acked ≤ conf.replayPackets

theorem Wf.new (conf : SessionConf) (nonce : Nonce) (now : Nat) :
    Wf conf (.new nonce now) [] :=
  ⟨rfl, Nat.le_refl _, .empty [], rfl, Int.natCast_nonneg _, Nat.zero_le _⟩

theorem Wf.congr (h : Wf conf io log) (hs : io'.sent = io.sent) (ha : io'.acked = io.acked)
    (hb : io'.outBuf = io.outBuf) (hn : io'.outBytes = io.outBytes) : Wf conf io' log := by
  obtain ⟨sent, acked, covers, bytes, maxBytes, maxPackets⟩ := h
  rw [← hs] at sent acked maxPackets
  rw [← ha] at acked covers bytes maxPackets
  rw [← hb] at covers
  rw [← hn] at bytes maxBytes
  exact ⟨sent, acked, covers, bytes, maxBytes, maxPackets⟩

theorem Wf.append_bytes (h : Wf conf io log) (pack : Pack) :
    (io.append pack).outBytes = Window.weight Pack.size ((log ++ [pack]).drop io.acked) := by
  have hle : io.acked ≤ log.length := h.sent ▸ h.acked
  rw [List.drop_append_of_le_length hle, Window.weight_append, append, h.bytes]
  simp only [Window.weight, List.map_cons, List.map_nil, List.sum_cons, List.sum_nil]
  omega

theorem Wf.append (h : Wf conf io log) (ho : (io.append pack).overflows conf = false) :
    Wf conf (io.append pack) (log ++ [pack]) := by
  have hle : io.acked ≤ log.length := h.sent ▸ h.acked
  simp only [overflows, Bool.or_eq_false_iff, decide_eq_false_iff_not, Int.not_lt,
    Nat.not_lt] at ho
  refine ⟨?_, Nat.le_succ_of_le h.acked, ?_, h.append_bytes pack, ho.1, ho.2⟩
  · simp only [SessionIo.append, h.sent, List.length_append, List.length_singleton]
  · simp only [SessionIo.append, h.sent]
    exact h.covers.push hle pack

theorem Wf.dropReplay (hs : io.sent = log.length) : Wf conf io.dropReplay log := by
  refine ⟨hs, Nat.le_refl _, ?_, ?_, Int.natCast_nonneg _, ?_⟩
  · simp only [SessionIo.dropReplay, hs]
    exact .empty log
  · simp only [SessionIo.dropReplay, hs, List.drop_length]
    rfl
  · simp only [SessionIo.dropReplay, Nat.sub_self, Nat.zero_le]

theorem Wf.record (h : Wf conf io log) (pack : Pack) :
    Wf conf (io.record conf pack) (log ++ [pack]) := by
  rw [SessionIo.record]
  split
  · refine .dropReplay ?_
    simp only [SessionIo.append, h.sent, List.length_append, List.length_singleton]
  · next ho => exact h.append (Bool.eq_false_iff.mpr ho)

theorem Wf.forget (h : Wf conf io log) (hlt : io.acked < io.sent) :
    Wf conf { (io.forget (io.acked + 1)) with acked := io.acked + 1 } log := by
  have hlen : io.acked < log.length := h.sent ▸ hlt
  have hget : io.outBuf (io.acked + 1) = some log[io.acked] := by
    rw [h.covers.get (Nat.le_refl _), List.getElem?_eq_getElem hlen]
  have hb := h.bytes
  rw [List.drop_eq_getElem_cons hlen, Window.weight_cons] at hb
  have hmax := h.maxBytes
  have hpackets := h.maxPackets
  simp only [SessionIo.forget, hget]
  exact ⟨h.sent, hlt, h.covers.trim, by simp only; omega, by simp only; omega, by simp only; omega⟩

theorem Wf.trim (h : Wf conf io log) (hn : io.acked + n ≤ io.sent) :
    Wf conf (io.trim n) log ∧ (io.trim n).acked = io.acked + n := by
  induction n generalizing io with
  | zero => exact ⟨h, rfl⟩
  | succ n ih =>
    have hf := h.forget (by omega)
    have hsent := hf.sent.trans h.sent.symm
    obtain ⟨hw, ha⟩ := ih hf (by rw [hsent]; simp only; omega)
    rw [SessionIo.trim]
    exact ⟨hw, ha.trans (by simp only; omega)⟩

theorem inRange_spec (h : io.outOfRange recv = false) :
    (io.acked : Int) ≤ recv ∧ recv ≤ io.sent := by
  simp only [outOfRange, Bool.or_eq_false_iff, decide_eq_false_iff_not, Int.not_lt] at h
  exact h

/-- Inside the range an acknowledgement moves the window to the client's count. -/
theorem Wf.ack_inRange (h : Wf conf io log) (recv : Option Int)
    (hr : io.outOfRange (recv.getD 0) = false) :
    Wf conf (io.ack recv) log ∧ (io.ack recv).acked = (recv.getD 0).toNat := by
  obtain ⟨hlo, hhi⟩ := inRange_spec hr
  rw [ack, hr]
  obtain ⟨hw, ha⟩ := h.trim (n := (recv.getD 0).toNat - io.acked) (by omega)
  exact ⟨hw, ha.trans (by omega)⟩

theorem Wf.ack (h : Wf conf io log) (recv : Option Int) : Wf conf (io.ack recv) log := by
  cases hr : io.outOfRange (recv.getD 0) with
  | false => exact (h.ack_inRange recv hr).1
  | true =>
    rw [SessionIo.ack, hr]
    exact h.congr rfl rfl rfl rfl

theorem Wf.resumed (h : Wf conf io log) (recv : Option Int) (nonce : Nonce) (now : Nat) :
    Wf conf (io.resumed recv nonce now) log := by
  have hreplaying : Wf conf { io with replaying := true } log := h.congr rfl rfl rfl rfl
  exact (hreplaying.ack recv).congr rfl rfl rfl rfl

theorem shrinkCache_frame (conf : SessionConf) (n : Nat) (io : SessionIo) :
    (shrinkCache conf n io).1.sent = io.sent ∧ (shrinkCache conf n io).1.acked = io.acked ∧
    (shrinkCache conf n io).1.outBuf = io.outBuf ∧
    (shrinkCache conf n io).1.outBytes = io.outBytes := by
  induction n generalizing io with
  | zero => exact ⟨rfl, rfl, rfl, rfl⟩
  | succ n ih =>
    rw [shrinkCache]
    split
    · split
      · next io' he =>
        obtain ⟨hs, ha, hb, hn⟩ := ih io'
        rw [evictOldestResponse] at he
        split at he
        · cases he
        · obtain ⟨entry, _, rfl⟩ := Option.map_eq_some_iff.mp he
          exact ⟨hs, ha, hb, hn⟩
      · exact ⟨rfl, rfl, rfl, rfl⟩
    · exact ⟨rfl, rfl, rfl, rfl⟩

theorem Wf.cacheResponse (h : Wf conf io log) (reqId : Nat) (pack : Pack) (name : Proto) :
    Wf conf (io.cacheResponse conf reqId pack name).1 log := by
  obtain ⟨hs, ha, hb, hn⟩ := shrinkCache_frame conf (io.respOrder ++ [reqId]).length
    { io with
      respOrder := io.respOrder ++ [reqId]
      respCache := Function.update io.respCache reqId (some ⟨pack, name⟩)
      respBytes := io.respBytes + pack.size }
  exact h.congr hs ha hb hn

theorem Run.wf (h : Run conf io log) : Wf conf io log := by
  induction h with
  | new nonce now => exact .new conf nonce now
  | record pack _ ih => exact ih.record pack
  | ack recv _ ih => exact ih.ack recv
  | resumed recv nonce now _ ih => exact ih.resumed recv nonce now
  | replayed _ ih => exact ih.congr rfl rfl rfl rfl
  | seen now _ ih => exact ih.congr rfl rfl rfl rfl
  | cache reqId pack name _ ih => exact ih.cacheResponse reqId pack name

theorem replayFrom_covers (h : Window.Covers log lo buf) (hlo : lo ≤ seq)
    (hn : seq + n = log.length) : replayFrom buf seq n = (log.drop seq, true) := by
  induction n generalizing seq with
  | zero => rw [replayFrom, List.drop_of_length_le (by omega)]
  | succ n ih =>
    have hlt : seq < log.length := by omega
    rw [replayFrom, h.get hlo, List.getElem?_eq_getElem hlt]
    have hrest : replayFrom buf (seq + 1) n = (log.drop (seq + 1), true) :=
      ih (by omega) (by omega)
    simp only [hrest]
    rw [← List.drop_eq_getElem_cons hlt]

/-- A replay writes the part of the log the client has not acknowledged and meets no gap. -/
theorem Wf.replayed (h : Wf conf io log) : io.replayed = (log.drop io.acked, true) :=
  replayFrom_covers h.covers (Nat.le_refl _) (by have := h.sent; have := h.acked; omega)

end SessionIo

end Skyext
