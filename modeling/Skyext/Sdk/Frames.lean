import Mathlib.Data.List.Basic

namespace Skyext
set_option autoImplicit true

namespace Sdk

abbrev Bytes := List UInt8

/-- What fits behind a header of two bytes. -/
structure Package where
  bytes : Bytes
  short : bytes.length ≤ 65535

def Package.encode (p : Package) : Bytes :=
  UInt8.ofNat (p.bytes.length / 256) :: UInt8.ofNat (p.bytes.length % 256) :: p.bytes

def encodeAll (ps : List Package) : Bytes := ps.flatMap Package.encode

/-- A connection, with what `socket.read` is going to return before the stream ends. -/
structure Conn where
  buf : Bytes
  chunks : List Bytes

def takePackage (buf : Bytes) : Option Bytes × Bytes :=
  match buf with
  | high :: low :: rest =>
    let size := high.toNat * 256 + low.toNat
    if rest.length < size then (none, buf) else (some (rest.take size), rest.drop size)
  | _ => (none, buf)

def readFrom (buf : Bytes) (chunks : List Bytes) : Option Bytes × Conn :=
  match takePackage buf with
  | (some pack, buf) => (some pack, ⟨buf, chunks⟩)
  | (none, buf) =>
    match chunks with
    | [] => (none, ⟨buf, []⟩)
    | more :: chunks =>
      if more = [] then (none, ⟨buf, chunks⟩) else readFrom (buf ++ more) chunks

def read (conn : Conn) : Option Bytes × Conn := readFrom conn.buf conn.chunks

def readMany : Nat → Conn → List (Option Bytes) × Conn
  | 0, conn => ([], conn)
  | n + 1, conn =>
    let (pack, conn) := read conn
    let (packs, conn) := readMany n conn
    (pack :: packs, conn)

def Unfinished (r : Bytes) : Prop := ∃ p : Package, ∃ s ≠ [], r ++ s = p.encode

variable {p : Package} {ps : List Package} {buf more r rest : Bytes} {chunks : List Bytes}

theorem Package.encode_length (p : Package) : p.encode.length = p.bytes.length + 2 := rfl

theorem Package.size (p : Package) :
    (UInt8.ofNat (p.bytes.length / 256)).toNat * 256 +
      (UInt8.ofNat (p.bytes.length % 256)).toNat = p.bytes.length := by
  have hp := p.short
  rw [UInt8.toNat_ofNat', UInt8.toNat_ofNat']
  omega

theorem takePackage_encode (p : Package) (rest : Bytes) :
    takePackage (p.encode ++ rest) = (some p.bytes, rest) := by
  simp only [Package.encode, List.cons_append, takePackage, p.size]
  rw [if_neg, List.take_left, List.drop_left]
  rw [List.length_append]
  omega

theorem takePackage_unfinished (h : buf ++ more = p.encode ++ rest)
    (hlen : buf.length < p.encode.length) : takePackage buf = (none, buf) := by
  rcases buf with _ | ⟨high, _ | ⟨low, tail⟩⟩
  · rfl
  · rfl
  · simp only [Package.encode, List.cons_append, List.cons.injEq] at h
    obtain ⟨rfl, rfl, _⟩ := h
    simp only [takePackage, p.size]
    rw [if_pos]
    rw [p.encode_length, List.length_cons, List.length_cons] at hlen
    exact Nat.lt_of_add_lt_add_right hlen

theorem Unfinished.takePackage (h : Unfinished r) : takePackage r = (none, r) := by
  obtain ⟨p, s, hs, he⟩ := h
  refine takePackage_unfinished (p := p) (he.trans (List.append_nil _).symm) ?_
  rw [← he, List.length_append]
  exact Nat.lt_add_of_pos_right (List.length_pos_iff.mpr hs)

/-- One read takes the next package, and reads no further than its end requires. -/
theorem readFrom_cons (hne : ∀ c ∈ chunks, c ≠ [])
    (h : buf ++ chunks.flatten = p.encode ++ rest) :
    ∃ got left, chunks = got ++ left ∧ ∃ buf', buf ++ got.flatten = p.encode ++ buf' ∧
      readFrom buf chunks = (some p.bytes, ⟨buf', left⟩) := by
  induction chunks generalizing buf with
  | nil =>
    rw [List.flatten_nil, List.append_nil] at h
    refine ⟨[], [], rfl, rest, by rw [List.flatten_nil, List.append_nil, h], ?_⟩
    rw [readFrom, h, takePackage_encode]
  | cons c chunks ih =>
    by_cases hlen : buf.length < p.encode.length
    · rw [List.flatten_cons, ← List.append_assoc] at h
      obtain ⟨got, left, hgot, buf', hbuf, hread⟩ :=
        ih (fun c hc => hne c (List.mem_cons_of_mem _ hc)) h
      refine ⟨c :: got, left, by rw [hgot, List.cons_append], buf', ?_, ?_⟩
      · rw [List.flatten_cons, ← List.append_assoc, hbuf]
      · rw [List.append_assoc] at h
        rw [readFrom, takePackage_unfinished h hlen]
        simp only [if_neg (hne c List.mem_cons_self)]
        exact hread
    · have hstarts : p.encode <+: buf :=
        List.prefix_of_prefix_length_le ⟨rest, h.symm⟩ ⟨_, rfl⟩ (Nat.le_of_not_lt hlen)
      obtain ⟨buf', rfl⟩ := hstarts
      refine ⟨[], c :: chunks, rfl, buf', by rw [List.flatten_nil, List.append_nil], ?_⟩
      rw [readFrom, takePackage_encode]

/-- What is no whole package stays in the buffer, and nothing is returned. -/
theorem readFrom_unfinished (hr : Unfinished r) (hne : ∀ c ∈ chunks, c ≠ [])
    (h : buf ++ chunks.flatten = r) : readFrom buf chunks = (none, ⟨r, []⟩) := by
  induction chunks generalizing buf with
  | nil =>
    rw [List.flatten_nil, List.append_nil] at h
    rw [readFrom, h, hr.takePackage]
  | cons c chunks ih =>
    have hc : c ≠ [] := hne c List.mem_cons_self
    have hbuf : takePackage buf = (none, buf) := by
      obtain ⟨p, s, _, he⟩ := hr
      rw [← h, List.append_assoc] at he
      refine takePackage_unfinished (p := p) (he.trans (List.append_nil _).symm) ?_
      have hpos := List.length_pos_iff.mpr hc
      rw [← he, List.length_append, List.length_append, List.flatten_cons, List.length_append]
      omega
    rw [readFrom, hbuf]
    simp only [if_neg hc]
    rw [List.flatten_cons, ← List.append_assoc] at h
    exact ih (fun c hc => hne c (List.mem_cons_of_mem _ hc)) h

theorem encodeAll_cons (p : Package) (ps : List Package) :
    encodeAll (p :: ps) = p.encode ++ encodeAll ps := rfl

/-- After any number of reads the packages are returned in their order, one by one and then
nothing, and of what has come in the rest is in the buffer. -/
theorem readMany_from (hr : Unfinished r) (n : Nat) (hne : ∀ c ∈ chunks, c ≠ [])
    (h : buf ++ chunks.flatten = encodeAll ps ++ r) :
    (readMany n ⟨buf, chunks⟩).1 = (ps.take n).map (fun p => some p.bytes) ++
        List.replicate (n - ps.length) none ∧
      ∃ got, chunks = got ++ (readMany n ⟨buf, chunks⟩).2.chunks ∧
        buf ++ got.flatten = encodeAll (ps.take n) ++ (readMany n ⟨buf, chunks⟩).2.buf := by
  induction n generalizing buf chunks ps with
  | zero =>
    refine ⟨?_, [], rfl, ?_⟩
    · rw [Nat.zero_sub]
      rfl
    · rw [List.flatten_nil, List.append_nil]
      rfl
  | succ n ih =>
    cases ps with
    | nil =>
      have hread : readFrom buf chunks = (none, ⟨r, []⟩) := readFrom_unfinished hr hne h
      obtain ⟨hpacks, got, hgot, hbuf⟩ := ih
        (show ∀ c ∈ ([] : List Bytes), c ≠ [] by simp)
        (show r ++ ([] : List Bytes).flatten = encodeAll [] ++ r from List.append_nil r)
      obtain ⟨rfl, hleft⟩ := List.append_eq_nil_iff.mp hgot.symm
      simp only [readMany, read, hread]
      refine ⟨?_, chunks, by rw [hleft, List.append_nil], ?_⟩
      · rw [hpacks, List.take_nil, List.take_nil, List.length_nil, Nat.sub_zero, Nat.sub_zero]
        rfl
      · rw [h, List.take_nil]
        rw [List.take_nil, List.flatten_nil, List.append_nil] at hbuf
        exact hbuf
    | cons p ps =>
      rw [encodeAll_cons, List.append_assoc] at h
      obtain ⟨got, left, rfl, buf', hbuf, hread⟩ := readFrom_cons hne h
      have hleft : buf' ++ left.flatten = encodeAll ps ++ r := by
        rw [List.flatten_append, ← List.append_assoc, hbuf, List.append_assoc] at h
        exact List.append_cancel_left h
      obtain ⟨hpacks, got', hgot, hbuf'⟩ :=
        ih (fun c hc => hne c (List.mem_append_right _ hc)) hleft
      simp only [readMany, read, hread]
      refine ⟨?_, got ++ got', by rw [List.append_assoc, ← hgot], ?_⟩
      · rw [hpacks, List.length_cons, Nat.add_sub_add_right]
        rfl
      · rw [List.flatten_append, ← List.append_assoc, hbuf, List.append_assoc, hbuf',
          List.take_succ_cons, encodeAll_cons, List.append_assoc]

/-- However a stream of packages is cut, repeated reads return exactly the packages, and what has
come in beyond them is in the buffer. -/
theorem readMany_exact (ps : List Package) (hr : Unfinished r) (hne : ∀ c ∈ chunks, c ≠ [])
    (h : chunks.flatten = encodeAll ps ++ r) (n : Nat) :
    (readMany n ⟨[], chunks⟩).1 = (ps.take n).map (fun p => some p.bytes) ++
        List.replicate (n - ps.length) none ∧
      ∃ got, chunks = got ++ (readMany n ⟨[], chunks⟩).2.chunks ∧
        got.flatten = encodeAll (ps.take n) ++ (readMany n ⟨[], chunks⟩).2.buf :=
  readMany_from hr n hne h

/-- Two packages, the second one empty, and half of a header; cut within the first header. -/
theorem readMany_exact_cut :
    (readMany 3 ⟨[], [[0], [2, 7], [8, 0, 0, 0]]⟩).1 = [some [7, 8], some [], none] ∧
      ∃ got, [[0], [2, 7], [8, 0, 0, 0]] =
          got ++ (readMany 3 ⟨[], [[0], [2, 7], [8, 0, 0, 0]]⟩).2.chunks ∧
        got.flatten = encodeAll [⟨[7, 8], by decide⟩, ⟨[], by decide⟩] ++
          (readMany 3 ⟨[], [[0], [2, 7], [8, 0, 0, 0]]⟩).2.buf :=
  readMany_exact [⟨[7, 8], by decide⟩, ⟨[], by decide⟩]
    (show Unfinished [0] from ⟨⟨[], by decide⟩, [0], by decide, rfl⟩) (by decide) (by decide) 3

theorem exists_encode {high low : UInt8} {bytes : Bytes}
    (h : bytes.length = high.toNat * 256 + low.toNat) :
    ∃ p : Package, p.encode = high :: low :: bytes := by
  have hhigh := high.toNat_lt
  have hlow := low.toNat_lt
  have hshort : bytes.length ≤ 65535 := by omega
  refine ⟨⟨bytes, hshort⟩, ?_⟩
  rw [Package.encode, h, show (high.toNat * 256 + low.toNat) / 256 = high.toNat by omega,
    show (high.toNat * 256 + low.toNat) % 256 = low.toNat by omega, UInt8.ofNat_toNat,
    UInt8.ofNat_toNat]

theorem exists_packages (s : Bytes) : ∃ ps r, Unfinished r ∧ s = encodeAll ps ++ r := by
  induction hn : s.length using Nat.strongRecOn generalizing s with
  | _ n ih =>
    rcases s with _ | ⟨high, _ | ⟨low, tail⟩⟩
    · exact ⟨[], [], ⟨⟨[], by decide⟩, _, by decide, rfl⟩, rfl⟩
    · obtain ⟨p, hp⟩ : ∃ p : Package,
          p.encode = high :: 0 :: List.replicate (high.toNat * 256) 0 :=
        exists_encode (by simp)
      exact ⟨[], [high], ⟨p, _, List.cons_ne_nil _ _, hp.symm⟩, rfl⟩
    · by_cases hlen : tail.length < high.toNat * 256 + low.toNat
      · obtain ⟨p, hp⟩ : ∃ p : Package, p.encode = high :: low ::
            (tail ++ List.replicate (high.toNat * 256 + low.toNat - tail.length) 0) := by
          refine exists_encode ?_
          rw [List.length_append, List.length_replicate]
          omega
        refine ⟨[], high :: low :: tail, ⟨p, _, ?_, hp.symm⟩, rfl⟩
        intro hnil
        have hzero := congrArg List.length hnil
        rw [List.length_replicate, List.length_nil] at hzero
        omega
      · obtain ⟨p, hp⟩ : ∃ p : Package, p.encode =
            high :: low :: tail.take (high.toNat * 256 + low.toNat) :=
          exists_encode (List.length_take_of_le (Nat.le_of_not_lt hlen))
        obtain ⟨ps, r, hr, hdrop⟩ := ih (tail.drop (high.toNat * 256 + low.toNat)).length (by
          rw [← hn, List.length_drop, List.length_cons, List.length_cons]
          omega) _ rfl
        refine ⟨p :: ps, r, hr, ?_⟩
        rw [encodeAll_cons, List.append_assoc, ← hdrop, hp, List.cons_append, List.cons_append,
          List.take_append_drop]

end Sdk
end Skyext
