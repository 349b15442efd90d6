import Mathlib.Data.List.Basic
import Skyext.Sdk.PackBlocks

namespace Skyext
set_option autoImplicit true

namespace Sdk

variable {b : Buffer} {e : Bytes} {vs : List (Option UInt8)} {i j start : Nat}

namespace Buffer

def writeAll (b : Buffer) (start : Nat) : List (Option UInt8) → Buffer
  | [] => b
  | v :: vs => (b.put start v).writeAll (start + 1) vs

theorem writeAll_snoc (b : Buffer) (start : Nat) (vs : List (Option UInt8)) (v : Option UInt8) :
    b.writeAll start (vs ++ [v]) = (b.writeAll start vs).put (start + vs.length) v := by
  induction vs generalizing b start with
  | nil => rfl
  | cons w vs ih =>
    rw [List.cons_append, writeAll, ih, writeAll, List.length_cons, Nat.add_right_comm,
      Nat.add_assoc]

theorem foldl_put (b : Buffer) (start n : Nat) (f : Nat → Option UInt8) :
    (List.range n).foldl (fun b i => b.put (start + i) (f i)) b =
      b.writeAll start ((List.range n).map f) := by
  induction n with
  | zero => rfl
  | succ n ih =>
    rw [List.range_succ, List.foldl_append, ih, List.map_append, List.map_singleton, writeAll_snoc,
      List.length_map, List.length_range]
    rfl

theorem put_get_ne (h : j ≠ i) (v : Option UInt8) : (b.put i v).get j = b.get j :=
  Function.update_of_ne h _ _

@[simp]
theorem put_get (b : Buffer) (i : Nat) (v : Option UInt8) : (b.put i v).get i = v :=
  Function.update_self ..

theorem writeAll_get_lt (h : j < start) : (b.writeAll start vs).get j = b.get j := by
  induction vs generalizing b start with
  | nil => rfl
  | cons v vs ih => rw [writeAll, ih (by omega), put_get_ne (by omega)]

theorem writeAll_get (h : vs[i]? = some v) : (b.writeAll start vs).get (start + i) = v := by
  induction vs generalizing b start i with
  | nil => cases h
  | cons w vs ih =>
    rw [writeAll]
    cases i with
    | zero =>
      cases h
      rw [writeAll_get_lt (by omega), Nat.add_zero, put_get]
    | succ i =>
      rw [List.getElem?_cons_succ] at h
      rw [show start + (i + 1) = start + 1 + i by omega]
      exact ih h

theorem writeAll_get_ge (h : start + vs.length ≤ j) : (b.writeAll start vs).get j = b.get j := by
  induction vs generalizing b start with
  | nil => rfl
  | cons v vs ih =>
    rw [List.length_cons] at h
    rw [writeAll, ih (by omega), put_get_ne (by omega)]

theorem writeAll_length (b : Buffer) (start : Nat) (vs : List (Option UInt8)) (hne : vs ≠ []) :
    (b.writeAll start vs).length = max b.length (start + vs.length) := by
  induction vs generalizing b start with
  | nil => exact absurd rfl hne
  | cons v vs ih =>
    rw [writeAll, List.length_cons]
    cases vs with
    | nil => rfl
    | cons w vs =>
      rw [ih _ _ (List.cons_ne_nil w vs)]
      simp only [put, List.length_cons]
      omega

theorem writeAll_append (b : Buffer) (start : Nat) (vs ws : List (Option UInt8)) :
    b.writeAll start (vs ++ ws) = (b.writeAll start vs).writeAll (start + vs.length) ws := by
  induction vs generalizing b start with
  | nil => rfl
  | cons v vs ih =>
    rw [List.cons_append, writeAll, ih, writeAll, List.length_cons, Nat.add_right_comm,
      Nat.add_assoc]

theorem put_comm (b : Buffer) (h : i ≠ j) (v w : Option UInt8) :
    (b.put i v).put j w = (b.put j w).put i v := by
  simp only [put, Buffer.mk.injEq]
  exact ⟨by omega, (Function.update_comm h v w b.get)⟩

theorem writeAll_put (b : Buffer) (h : i < start) (v : Option UInt8) :
    (b.writeAll start vs).put i v = (b.put i v).writeAll start vs := by
  induction vs generalizing b start with
  | nil => rfl
  | cons w vs ih => rw [writeAll, ih _ (by omega), writeAll, put_comm b (by omega)]

theorem writeAll_comm (b : Buffer) (vs ws : List (Option UInt8)) (h : i + ws.length ≤ start) :
    (b.writeAll start vs).writeAll i ws = (b.writeAll i ws).writeAll start vs := by
  induction ws generalizing b i with
  | nil => rfl
  | cons w ws ih =>
    rw [List.length_cons] at h
    rw [writeAll, writeAll_put b (by omega), ih _ (by omega), writeAll]

def Holds (b : Buffer) (start : Nat) (e : Bytes) : Prop :=
  ∀ j x, e[j]? = some x → (b.get (start + j)).getD 0 = x

theorem Holds.writeAll (b : Buffer) (start : Nat) (vs : List (Option UInt8)) :
    (b.writeAll start vs).Holds start (toBytes vs) := by
  intro j x hx
  rw [toBytes, List.getElem?_map] at hx
  obtain ⟨v, hv, rfl⟩ := Option.map_eq_some_iff.mp hx
  rw [writeAll_get hv]

theorem Holds.append (he : b.Holds start e) (hf : b.Holds (start + e.length) f) :
    b.Holds start (e ++ f) := by
  intro j x hx
  by_cases hj : j < e.length
  · rw [List.getElem?_append_left hj] at hx
    exact he j x hx
  · rw [List.getElem?_append_right (by omega)] at hx
    have hget := hf (j - e.length) x hx
    rwa [show start + e.length + (j - e.length) = start + j by omega] at hget

theorem Holds.frame (h : b.Holds start e)
    (hsep : start + e.length ≤ i ∨ i + vs.length ≤ start) : (b.writeAll i vs).Holds start e := by
  intro j x hx
  have hj : j < e.length := (List.getElem?_eq_some_iff.mp hx).1
  rw [← h j x hx]
  obtain hsep | hsep := hsep
  · rw [writeAll_get_lt (by omega)]
  · rw [writeAll_get_ge (by omega)]

theorem Holds.toBytes (h : b.Holds 0 e) (hlen : b.length = e.length) :
    Sdk.toBytes b.toList = e := by
  apply List.ext_getElem?
  intro j
  rw [Sdk.toBytes, toList, List.map_map, List.getElem?_map]
  by_cases hj : j < e.length
  · have hget := h j e[j] (List.getElem?_eq_getElem hj)
    rw [Nat.zero_add] at hget
    rw [List.getElem?_range (by omega), List.getElem?_eq_getElem hj, ← hget]
    rfl
  · rw [List.getElem?_eq_none (by rw [List.length_range]; omega), List.getElem?_eq_none (by omega)]
    rfl

end Buffer

theorem toBytes_some (s : Bytes) : toBytes (s.map some) = s := by
  rw [toBytes, List.map_map]
  exact List.map_id s

def byteAt (srcv : Bytes) (j : Nat) : UInt8 := (srcv[j]?).getD 0

def bytesFrom (srcv : Bytes) (start n : Nat) : Bytes :=
  (List.range n).map fun j => byteAt srcv (start + j)

@[simp]
theorem bytesFrom_length (srcv : Bytes) (start n : Nat) : (bytesFrom srcv start n).length = n := by
  rw [bytesFrom, List.length_map, List.length_range]

theorem bytesFrom_append (srcv : Bytes) (start m n : Nat) :
    bytesFrom srcv start (m + n) = bytesFrom srcv start m ++ bytesFrom srcv (start + m) n := by
  simp only [bytesFrom, List.range_add, List.map_append, List.map_map]
  congr 1
  apply List.map_congr_left
  intro j _
  exact congrArg (byteAt srcv) (by simp only; omega)

theorem bytesFrom_all (srcv : Bytes) (n : Nat) :
    bytesFrom srcv 0 (srcv.length + n) = srcv ++ List.replicate n 0 := by
  rw [bytesFrom_append]
  congr 1
  · apply List.ext_getElem
    · rw [bytesFrom_length]
    · intro j _ hj
      simp [bytesFrom, byteAt, hj]
  · rw [List.eq_replicate_iff]
    refine ⟨bytesFrom_length .., fun x hx => ?_⟩
    obtain ⟨j, -, rfl⟩ := List.mem_map.mp hx
    rw [byteAt, List.getElem?_eq_none (by omega)]
    rfl

theorem bytesFrom_drop (h : start + n = srcv.length) :
    bytesFrom srcv start n = srcv.drop start := by
  apply List.ext_getElem
  · rw [bytesFrom_length, List.length_drop]
    omega
  · intro j hj _
    rw [bytesFrom_length] at hj
    simp only [bytesFrom, byteAt, List.getElem_map, List.getElem_range, List.getElem_drop,
      List.getElem?_eq_getElem (show start + j < srcv.length by omega), Option.getD_some]

theorem writeFf_eq (src : Src) (srcIdx : Nat) (des : Buffer) (destIdx n m : Nat)
    (hm : (n + 7) / 8 = m) :
    writeFf src srcIdx des destIdx n = des.writeAll destIdx (some 0xff ::
      some (UInt8.ofNat (m - 1)) :: ((List.range n).map (fun i => src (srcIdx + i)) ++
        (List.range (8 * m - n)).map fun _ => some 0)) := by
  have h8 : 8 * m / 8 = m := by omega
  simp only [writeFf, hm, Nat.mul_comm m 8, h8, Buffer.foldl_put, Buffer.writeAll,
    Buffer.writeAll_append, List.length_map, List.length_range]

/-- A run is written out whole, its last bytes as zeros where the message has ended. -/
theorem writeFf_bytes (srcv : Bytes) (srcIdx n m : Nat) (hm : (n + 7) / 8 = m)
    (hn : n = 8 * m ∨ srcv.length ≤ srcIdx + n) :
    ∃ vs, (∀ des destIdx,
      writeFf (fun j => srcv[j]?) srcIdx des destIdx n = des.writeAll destIdx vs) ∧
      vs.length = 2 + 8 * m ∧
      toBytes vs = 0xff :: UInt8.ofNat (m - 1) :: bytesFrom srcv srcIdx (8 * m) := by
  refine ⟨_, fun des destIdx => writeFf_eq _ srcIdx des destIdx n m hm, ?_, ?_⟩
  · simp only [List.length_cons, List.length_append, List.length_map, List.length_range]
    omega
  · obtain ⟨k, hk⟩ : ∃ k, 8 * m = n + k := ⟨8 * m - n, by omega⟩
    rw [hk, bytesFrom_append, Nat.add_sub_cancel_left]
    simp only [toBytes, List.map_cons, List.map_append, List.map_map, Option.getD_some]
    congr 3
    apply List.map_congr_left
    intro j hj
    rw [byteAt, List.getElem?_eq_none]
    · rfl
    · obtain rfl | hn := hn
      · rw [List.mem_range] at hj
        omega
      · omega

def Reads (src : Src) (srcIdx : Nat) (s : Bytes) : Prop :=
  ∀ i x, s[i]? = some x → src (srcIdx + i) = some x

theorem fold_packByte {src : Src} (hr : Reads src srcIdx s) (buffer : Buffer) (idx : Nat)
    (sz : Int) (hsz : s.length ≤ sz) (k : Nat) (hk : k ≤ s.length) :
    (List.range k).foldl (packByte src srcIdx) ⟨buffer, idx, sz, 0, 0⟩ =
      ⟨buffer.writeAll idx ((nonzero (s.take k)).map some), idx + (nonzero (s.take k)).length,
        sz - (nonzero (s.take k)).length, headerOf (s.take k), (nonzero (s.take k)).length⟩ := by
  induction k with
  | zero =>
    simp only [List.take_zero, nonzero, List.filter_nil, List.length_nil, Int.ofNat_zero,
      Int.sub_zero]
    rfl
  | succ k ih =>
    have hget := List.getElem?_eq_getElem (show k < s.length by omega)
    have hread := hr k _ hget
    have hlen : (s.take k).length = k := List.length_take_of_le (by omega)
    have hle : (nonzero (s.take k)).length ≤ k := by
      have := List.length_filter_le (fun x : UInt8 => x ≠ 0) (s.take k)
      rw [hlen] at this
      exact this
    rw [List.range_succ, List.foldl_append, ih (by omega), List.take_add_one, hget, nonzero_append]
    generalize s[k] = x at hread
    simp only [List.foldl_cons, List.foldl_nil, packByte, hread, Option.toList_some,
      nonzero_cons]
    by_cases hx : x = 0
    · subst hx
      rw [if_neg (not_not_intro rfl), if_neg (not_not_intro rfl), headerOf_append,
        if_neg (not_not_intro rfl)]
      simp only [nonzero, List.filter_nil, List.append_nil, Nat.add_zero]
    · have hne : (some x : Option UInt8) ≠ some 0 := fun h => hx (Option.some.inj h)
      have hor := headerOf_or (s.take k) x hx
      rw [hlen] at hor
      rw [if_pos hne, if_pos hx, if_pos (by omega), hor]
      simp only [nonzero, List.filter_nil, List.length_append, List.length_singleton,
        List.map_append, List.map_singleton, Buffer.writeAll_snoc, List.length_map,
        Seg.mk.injEq, true_and, and_true]
      omega

theorem zero_mem (h : (nonzero s).length < s.length) : 0 ∈ s := by
  obtain ⟨x, hx, hz⟩ := List.length_filter_lt_length_iff_exists.mp h
  simp only [ne_eq, decide_eq_true_eq, not_not] at hz
  exact hz ▸ hx

/-- `packSeg` takes eight bytes into a run. -/
def Joins (s : Bytes) (n : Nat) : Prop :=
  (nonzero s).length = 8 ∨ ((nonzero s).length = 7 ∨ (nonzero s).length = 6) ∧ 0 < n

section PackSeg

variable {src : Src} {srcIdx idx n : Nat} {s : Bytes} {sz : Int}

theorem packSeg_run (hr : Reads src srcIdx s) (hs : s.length = 8) (hsz : 10 ≤ sz)
    (h : Joins s n) (buffer : Buffer) :
    packSeg src srcIdx buffer idx sz n =
      (if 0 < n then 8 else 10, buffer.writeAll (idx + 1) ((nonzero s).map some)) := by
  have hfold := fold_packByte hr buffer (idx + 1) (sz - 1) (by omega) 8 (by omega)
  rw [List.take_of_length_le (by omega)] at hfold
  rw [packSeg, if_neg (by omega), hfold]
  simp only
  by_cases hj : ((nonzero s).length = 7 ∨ (nonzero s).length = 6) ∧ 0 < n
  · rw [if_pos hj, if_pos rfl]
  · rw [if_neg hj, if_pos (h.resolve_right hj)]

theorem packSeg_seg (hr : Reads src srcIdx s) (hs : s.length = 8) (hsz : 10 ≤ sz)
    (h : ¬ Joins s n) (buffer : Buffer) :
    packSeg src srcIdx buffer idx sz n = ((nonzero s).length + 1,
      buffer.writeAll idx (some (UInt8.ofNat (headerOf s)) :: (nonzero s).map some)) := by
  obtain ⟨h8, hj⟩ := not_or.mp h
  have hfold := fold_packByte hr buffer (idx + 1) (sz - 1) (by omega) 8 (by omega)
  rw [List.take_of_length_le (by omega)] at hfold
  rw [packSeg, if_neg (by omega), hfold]
  simp only
  rw [if_neg hj, if_neg h8, Buffer.writeAll_put _ (by omega), Buffer.writeAll]

end PackSeg

namespace Pack

/-- The run that is not written out yet, if there is one: blocks have been written for all before
it, and there is room for it behind them. -/
structure Open (srcv : Bytes) (k : Nat) (p : Pack) (bs : List Block) : Prop where
  pos : 1 ≤ p.ffN
  le : p.ffN ≤ 256
  start : p.ffSrcstart = fun j => srcv[j]?
  idx : p.ffSrcstartIdx + 8 * p.ffN = 8 * k
  inside : p.ffSrcstartIdx < srcv.length
  des : (Block.encodeAll bs).length = p.ffDesstartIdx
  size : p.size = p.ffDesstartIdx + 2 + 8 * p.ffN
  plain : Block.plainAll bs = bytesFrom srcv 0 p.ffSrcstartIdx

structure Closed (srcv : Bytes) (k : Nat) (p : Pack) (bs : List Block) : Prop where
  zero : p.ffN = 0
  size : (Block.encodeAll bs).length = p.size
  written : p.size ≤ p.buffer.length
  plain : Block.plainAll bs = bytesFrom srcv 0 (8 * k)

/-- After so many times eight bytes; one byte more than is counted was written when they end in
eight that are not zero. -/
structure Inv (srcv : Bytes) (k : Nat) (p : Pack) : Prop where
  bufferIdx : p.bufferIdx = p.size
  bufsz : p.bufsz = 1073741824 - p.size
  small : p.size ≤ 10 * k
  src : 8 * k ≤ srcv.length → p.src = (fun j => srcv[j]?) ∧ p.srcIdx = 8 * k
  length : p.buffer.length ≤ p.size + 1
  surplus : p.buffer.length = p.size + 1 → 8 ≤ 8 * k ∧ 8 * k ≤ srcv.length ∧
    0 ∉ bytesFrom srcv (8 * k - 8) 8
  blocks : ∃ bs, p.buffer.Holds 0 (Block.encodeAll bs) ∧
    (Closed srcv k p bs ∨ Open srcv k p bs)

variable {srcv : Bytes} {k : Nat} {p : Pack} {bs : List Block}

theorem pad_reads (h : Inv srcv k p) (hk : 8 * k < srcv.length) :
    Reads (p.pad srcv (8 * k)).src (p.pad srcv (8 * k)).srcIdx (bytesFrom srcv (8 * k) 8) := by
  obtain ⟨hsrc, hidx⟩ := h.src (by omega)
  intro i x hx
  have hi : i < 8 := by
    have := (List.getElem?_eq_some_iff.mp hx).1
    rwa [bytesFrom_length] at this
  rw [bytesFrom, List.getElem?_map, List.getElem?_range hi] at hx
  cases hx
  show _ = some ((srcv[8 * k + i]?).getD 0)
  unfold pad
  split
  · simp only [hsrc, hidx, Nat.zero_add]
    split
    · rw [List.getElem?_eq_getElem (by omega)]
      rfl
    · rw [List.getElem?_eq_none (by omega)]
      rfl
  · simp only [hsrc, hidx]
    rw [List.getElem?_eq_getElem (by omega)]
    rfl

theorem Open.writeFf (h : Open srcv k p bs) (hn : (n + 7) / 8 = p.ffN)
    (hend : n = 8 * p.ffN ∨ srcv.length ≤ p.ffSrcstartIdx + n) :
    ∃ vs, vs.length = 2 + 8 * p.ffN ∧
      toBytes vs = 0xff :: UInt8.ofNat (p.ffN - 1) :: bytesFrom srcv p.ffSrcstartIdx (8 * p.ffN) ∧
      ∀ b, Sdk.writeFf p.ffSrcstart p.ffSrcstartIdx b p.ffDesstartIdx n =
        b.writeAll p.ffDesstartIdx vs := by
  obtain ⟨vs, hvs, hlen, hbytes⟩ := writeFf_bytes srcv p.ffSrcstartIdx n p.ffN hn hend
  refine ⟨vs, hlen, hbytes, fun b => ?_⟩
  rw [h.start, hvs]

theorem Inv.flush (h : Inv srcv k p) (hpos : 1 ≤ p.ffN) (hroom : 0 ≤ p.bufsz)
    (hn : (n + 7) / 8 = p.ffN)
    (hend : n = 8 * p.ffN ∨ srcv.length ≤ p.ffSrcstartIdx + n) : Inv srcv k (p.flush n) := by
  obtain ⟨bs, hb, hc | ho⟩ := h.blocks
  · have := hc.zero
    omega
  obtain ⟨vs, hlen, hbytes, hall⟩ := ho.writeFf hn hend
  have hbuf : (p.flush n).buffer = p.buffer.writeAll p.ffDesstartIdx vs :=
    (if_pos hroom).trans (hall p.buffer)
  have hsize := ho.size
  have hdes := ho.des
  have hrun : (bytesFrom srcv p.ffSrcstartIdx (8 * p.ffN)).length = 8 * p.ffN := bytesFrom_length ..
  have hlength : (p.flush n).buffer.length = max p.buffer.length p.size := by
    rw [hbuf, Buffer.writeAll_length _ _ _ (by rw [← List.length_pos_iff]; omega), hlen]
    congr 1
    omega
  have hle := h.length
  refine ⟨h.bufferIdx, h.bufsz, h.small, h.src, ?_, fun hover => h.surplus ?_, ?_⟩
  · rw [hlength]
    exact Nat.max_le.mpr ⟨hle, Nat.le_succ _⟩
  · have : (p.flush n).size = p.size := rfl
    omega
  · refine ⟨bs ++ [.run _ p.ffN ho.pos ho.le hrun], ?_, .inl ⟨rfl, ?_, ?_, ?_⟩⟩
    · rw [hbuf, Block.encodeAll_append, Block.encodeAll_singleton, Block.encode, ← hbytes]
      apply Buffer.Holds.append
      · exact hb.frame (.inl (by omega))
      · rw [Nat.zero_add, hdes]
        exact Buffer.Holds.writeAll _ _ _
    · rw [Block.encodeAll_append, Block.encodeAll_singleton, Block.encode]
      simp only [List.length_append, List.length_cons, hrun, hdes]
      show _ = p.size
      omega
    · rw [hlength]
      exact Nat.le_max_right _ _
    · rw [Block.plainAll_append, Block.plainAll_singleton, Block.plain, ho.plain, ← ho.idx,
        bytesFrom_append, Nat.zero_add]

theorem zero_mem_bytesFrom (hend : srcv.length < 8 * k + 8) :
    0 ∈ bytesFrom srcv (8 * k) 8 := by
  refine List.mem_map.mpr ⟨7, by simp, ?_⟩
  rw [byteAt, List.getElem?_eq_none (by omega)]
  rfl

theorem nonzero_length (h : 0 ∈ s) : (nonzero s).length < s.length :=
  List.length_filter_lt_length_iff_exists.mpr ⟨0, h, by simp⟩

theorem zero_not_mem (h : (nonzero s).length = s.length) : 0 ∉ s := fun hz => by
  have := nonzero_length hz
  omega

/-- Eight bytes that are not zero are all of the message. -/
theorem inside_of_full (h : (nonzero (bytesFrom srcv (8 * k) 8)).length = 8) :
    8 * k + 8 ≤ srcv.length := by
  by_contra hlt
  have hz := nonzero_length (zero_mem_bytesFrom (k := k) (Nat.lt_of_not_le hlt))
  rw [bytesFrom_length] at hz
  omega

theorem step_open (h : Inv srcv k p) (hk : 8 * k < srcv.length) (hroom : 10 ≤ p.bufsz)
    (hz : p.ffN = 0) (hj : Joins (bytesFrom srcv (8 * k) 8) 0) :
    Inv srcv (k + 1) (p.step srcv (8 * k)) ∧ (p.step srcv (8 * k)).ffN = 1 := by
  have h8 : (nonzero (bytesFrom srcv (8 * k) 8)).length = 8 :=
    hj.resolve_right fun hn => absurd hn.2 (Nat.lt_irrefl 0)
  have hin := inside_of_full h8
  obtain ⟨hsrc, hidx⟩ := h.src (by omega)
  have hpad : p.pad srcv (8 * k) = p := if_neg (by omega)
  have hreads := pad_reads h hk
  rw [hpad] at hreads
  have hpack : packSeg p.src p.srcIdx p.buffer p.size p.bufsz 0 =
      (10, p.buffer.writeAll (p.size + 1) ((nonzero (bytesFrom srcv (8 * k) 8)).map some)) :=
    packSeg_run hreads (bytesFrom_length ..) hroom hj p.buffer
  simp only [step, hpad, h.bufferIdx, hz, hpack, follow, if_true]
  have hlen : (nonzero (bytesFrom srcv (8 * k) 8)).map some ≠ [] := by
    rw [← List.length_pos_iff, List.length_map]
    omega
  have hsize := Buffer.writeAll_length p.buffer (p.size + 1) _ hlen
  rw [List.length_map, h8] at hsize
  have hle := h.length
  have hbufsz := h.bufsz
  have hsmall := h.small
  refine ⟨⟨rfl, ?_, ?_, fun _ => ⟨hsrc, by simp only; omega⟩, ?_, ?_, ?_⟩, trivial⟩
  · simp only
    omega
  · simp only
    omega
  · simp only
    omega
  · simp only
    omega
  · obtain ⟨bs, hb, hc | ho⟩ := h.blocks
    · refine ⟨bs, hb.frame (.inl ?_), .inr ?_⟩
      · rw [hc.size]
        omega
      · exact ⟨Nat.le_refl 1, Nat.le_of_ble_eq_true rfl, hsrc, by simp only; omega,
          by simp only; omega, hc.size, rfl, by simp only [hidx, hc.plain]⟩
    · have := ho.pos
      omega

theorem Inv.seg (h : Inv srcv k p) (hz : p.ffN = 0) {src : Src}
    {srcIdx : Nat}
    (hsrc : 8 * (k + 1) ≤ srcv.length → src = (fun j => srcv[j]?) ∧ srcIdx = 8 * (k + 1))
    (hc : (nonzero (bytesFrom srcv (8 * k) 8)).length < 8) :
    Inv srcv (k + 1) { p with
      src := src
      srcIdx := srcIdx
      buffer := p.buffer.writeAll p.size
        (some (UInt8.ofNat (headerOf (bytesFrom srcv (8 * k) 8))) ::
          (nonzero (bytesFrom srcv (8 * k) 8)).map some)
      bufferIdx := p.size + ((nonzero (bytesFrom srcv (8 * k) 8)).length + 1)
      size := p.size + ((nonzero (bytesFrom srcv (8 * k) 8)).length + 1)
      bufsz := p.bufsz - ((nonzero (bytesFrom srcv (8 * k) 8)).length + 1 : Nat) } := by
  have hlen : (bytesFrom srcv (8 * k) 8).length = 8 := bytesFrom_length ..
  generalize hs : bytesFrom srcv (8 * k) 8 = s at hc hlen
  have hsize := Buffer.writeAll_length p.buffer p.size
    (some (UInt8.ofNat (headerOf s)) :: (nonzero s).map some) (List.cons_ne_nil _ _)
  rw [List.length_cons, List.length_map] at hsize
  have hle := h.length
  have hbufsz := h.bufsz
  have hsmall := h.small
  refine ⟨rfl, ?_, ?_, hsrc, ?_, ?_, ?_⟩
  · simp only
    omega
  · simp only
    omega
  · simp only
    omega
  · simp only
    omega
  · obtain ⟨bs, hb, hcl | ho⟩ := h.blocks
    · refine ⟨bs ++ [.seg s hlen (zero_mem (by omega))], ?_, .inl ⟨hz, ?_, ?_, ?_⟩⟩
      · rw [Block.encodeAll_append, Block.encodeAll_singleton, Block.encode]
        apply Buffer.Holds.append
        · exact hb.frame (.inl (by rw [hcl.size]; omega))
        · rw [Nat.zero_add, hcl.size]
          have hbytes : UInt8.ofNat (headerOf s) :: nonzero s =
              toBytes (some (UInt8.ofNat (headerOf s)) :: (nonzero s).map some) :=
            congrArg (List.cons _) (toBytes_some _).symm
          rw [hbytes]
          exact Buffer.Holds.writeAll _ _ _
      · rw [Block.encodeAll_append, Block.encodeAll_singleton, Block.encode, List.length_append,
          List.length_cons, hcl.size]
      · simp only
        omega
      · rw [Block.plainAll_append, Block.plainAll_singleton, Block.plain, hcl.plain, ← hs,
          Nat.mul_succ, bytesFrom_append, Nat.zero_add]
    · have := ho.pos
      omega

theorem pad_fields (srcv : Bytes) (p : Pack) (i : Nat) : p.pad srcv i =
    { p with src := (p.pad srcv i).src, srcIdx := (p.pad srcv i).srcIdx } := by
  unfold pad
  split <;> rfl

theorem pad_inside (h : Inv srcv k p) (hk : 8 * (k + 1) ≤ srcv.length) :
    (p.pad srcv (8 * k)).src = (fun j => srcv[j]?) ∧
      (p.pad srcv (8 * k)).srcIdx + 8 = 8 * (k + 1) := by
  obtain ⟨hsrc, hidx⟩ := h.src (by omega)
  rw [pad, if_neg (by omega)]
  exact ⟨hsrc, by omega⟩

theorem step_seg (h : Inv srcv k p) (hk : 8 * k < srcv.length) (hroom : 10 ≤ p.bufsz)
    (hj : ¬ Joins (bytesFrom srcv (8 * k) 8) p.ffN) :
    Inv srcv (k + 1) (p.step srcv (8 * k)) ∧ (p.step srcv (8 * k)).ffN = 0 := by
  have hin := pad_inside (k := k) h
  have hreads := pad_reads h hk
  have hpad := pad_fields srcv p (8 * k)
  generalize (p.pad srcv (8 * k)).src = src at hpad hreads hin
  generalize (p.pad srcv (8 * k)).srcIdx = srcIdx at hpad hreads hin
  have hc : (nonzero (bytesFrom srcv (8 * k) 8)).length < 8 := by
    have hle : (nonzero (bytesFrom srcv (8 * k) 8)).length ≤ _ := List.length_filter_le _ _
    rw [bytesFrom_length] at hle
    have := (not_or.mp hj).1
    omega
  have hpack : packSeg src srcIdx p.buffer p.size p.bufsz p.ffN = _ :=
    packSeg_seg hreads (bytesFrom_length ..) hroom hj p.buffer
  simp only [step, hpad, h.bufferIdx, hpack, follow]
  rw [if_neg (by omega)]
  by_cases hz : p.ffN = 0
  · rw [if_neg (by omega), if_neg (by omega)]
    exact ⟨h.seg hz hin hc, hz⟩
  · have hpos : 0 < p.ffN := by omega
    have h7 : (nonzero (bytesFrom srcv (8 * k) 8)).length ≠ 7 := fun h7 => hj (.inr ⟨.inl h7, hpos⟩)
    rw [if_neg (by omega), if_pos hpos]
    obtain ⟨bs, hb, hcl | ho⟩ := h.blocks
    · exact absurd hcl.zero hz
    obtain ⟨vs, hlen, -, hall⟩ := ho.writeFf (n := p.ffN * 8) (by omega) (.inl (by omega))
    have hf := h.flush hpos (by omega) (n := p.ffN * 8) (by omega) (.inl (by omega))
    have hseg := hf.seg rfl hin hc
    have hsize := ho.size
    refine ⟨?_, rfl⟩
    have hbuf : (p.flush (p.ffN * 8)).buffer = p.buffer.writeAll p.ffDesstartIdx vs :=
      (if_pos (by omega)).trans (hall p.buffer)
    rw [hbuf, ← Buffer.writeAll_comm _ _ _ (by rw [hlen]; show _ ≤ p.size; omega)] at hseg
    simp only [flush, hall]
    rw [if_pos (by omega)]
    exact hseg

theorem Inv.join (h : Inv srcv k p) (hpos : 0 < p.ffN)
    (hlt : p.ffN < 256) {src : Src} {srcIdx : Nat}
    (hsrc : 8 * (k + 1) ≤ srcv.length → src = (fun j => srcv[j]?) ∧ srcIdx = 8 * (k + 1))
    (hj : Joins (bytesFrom srcv (8 * k) 8) p.ffN) :
    Inv srcv (k + 1) { p with
      src := src
      srcIdx := srcIdx
      buffer := p.buffer.writeAll (p.size + 1) ((nonzero (bytesFrom srcv (8 * k) 8)).map some)
      bufferIdx := p.size + 8
      ffN := p.ffN + 1
      size := p.size + 8
      bufsz := p.bufsz - 8 } := by
  obtain ⟨bs, hb, hcl | ho⟩ := h.blocks
  · have := hcl.zero
    omega
  have hc : 6 ≤ (nonzero (bytesFrom srcv (8 * k) 8)).length := by
    obtain h8 | ⟨h7 | h6, -⟩ := hj <;> omega
  have hc8 : (nonzero (bytesFrom srcv (8 * k) 8)).length ≤ 8 := by
    have hle : (nonzero (bytesFrom srcv (8 * k) 8)).length ≤ _ := List.length_filter_le _ _
    rwa [bytesFrom_length] at hle
  have hsize := Buffer.writeAll_length p.buffer (p.size + 1)
    ((nonzero (bytesFrom srcv (8 * k) 8)).map some)
    (by rw [← List.length_pos_iff, List.length_map]; omega)
  rw [List.length_map] at hsize
  have hle := h.length
  have hbufsz := h.bufsz
  have hsmall := h.small
  have hosize := ho.size
  have hidx := ho.idx
  refine ⟨rfl, ?_, ?_, hsrc, ?_, ?_, ?_⟩
  · simp only
    omega
  · simp only
    omega
  · simp only
    omega
  · intro hover
    simp only at hover
    have h8 : (nonzero (bytesFrom srcv (8 * k) 8)).length = 8 := by omega
    have hin := inside_of_full h8
    refine ⟨by omega, by omega, ?_⟩
    rw [Nat.mul_succ, Nat.add_sub_cancel]
    exact zero_not_mem (by rw [h8, bytesFrom_length])
  · refine ⟨bs, hb.frame (.inl ?_), .inr ?_⟩
    · rw [ho.des]
      omega
    · exact ⟨Nat.le_add_left _ _, hlt, ho.start, by simp only; omega, ho.inside, ho.des,
        by simp only; omega, ho.plain⟩

theorem step_join (h : Inv srcv k p) (hk : 8 * k < srcv.length) (hroom : 10 ≤ p.bufsz)
    (hpos : 0 < p.ffN) (hlt : p.ffN < 256) (hj : Joins (bytesFrom srcv (8 * k) 8) p.ffN) :
    Inv srcv (k + 1) (p.step srcv (8 * k)) ∧ (p.step srcv (8 * k)).ffN < 256 := by
  have hin := pad_inside (k := k) h
  have hreads := pad_reads h hk
  have hpad := pad_fields srcv p (8 * k)
  generalize (p.pad srcv (8 * k)).src = src at hpad hreads hin
  generalize (p.pad srcv (8 * k)).srcIdx = srcIdx at hpad hreads hin
  have hpack : packSeg src srcIdx p.buffer p.size p.bufsz p.ffN = _ :=
    packSeg_run hreads (bytesFrom_length ..) hroom hj p.buffer
  rw [if_pos hpos] at hpack
  have hjoin := h.join hpos hlt hin hj
  simp only [step, hpad, h.bufferIdx, hpack, follow]
  rw [if_neg (by omega), if_pos ⟨trivial, hpos⟩]
  by_cases h256 : p.ffN + 1 = 256
  · rw [if_pos h256]
    have hf := hjoin.flush (Nat.le_add_left _ _) (by simp only; omega) (n := 256 * 8)
      (by simp only; omega) (.inl (by simp only; omega))
    exact ⟨hf, Nat.zero_lt_of_lt hlt⟩
  · rw [if_neg h256]
    exact ⟨hjoin, by simp only; omega⟩

theorem step_inv (h : Inv srcv k p) (hlt : p.ffN < 256) (hk : 8 * k < srcv.length)
    (hroom : 10 ≤ p.bufsz) :
    Inv srcv (k + 1) (p.step srcv (8 * k)) ∧ (p.step srcv (8 * k)).ffN < 256 := by
  by_cases hj : Joins (bytesFrom srcv (8 * k) 8) p.ffN
  · by_cases hz : p.ffN = 0
    · rw [hz] at hj
      obtain ⟨hi, h1⟩ := step_open h hk hroom hz hj
      exact ⟨hi, by omega⟩
    · exact step_join h hk hroom (by omega) hlt hj
  · obtain ⟨hi, hz⟩ := step_seg h hk hroom hj
    exact ⟨hi, by omega⟩

theorem loop_inv (srcv : Bytes) (hsmall : srcv.length ≤ 536870912) (k : Nat)
    (hk : 8 * k < srcv.length + 8) :
    Inv srcv k (loop srcv k) ∧ (loop srcv k).ffN < 256 := by
  induction k with
  | zero =>
    refine ⟨⟨rfl, rfl, Nat.le_refl _, fun _ => ⟨rfl, rfl⟩, Nat.zero_le _, ?_, [], ?_, .inl ?_⟩, ?_⟩
    · rintro ⟨⟩
    · rintro j x ⟨⟩
    · exact ⟨rfl, rfl, Nat.le_refl _, rfl⟩
    · exact Nat.zero_lt_succ _
  | succ k ih =>
    obtain ⟨hi, hlt⟩ := ih (by omega)
    have hbufsz := hi.bufsz
    have hle := hi.small
    have hstep := step_inv hi hlt (by omega) (by omega)
    rw [loop, List.range_succ, List.foldl_append]
    exact hstep

theorem encode_zeros : UInt8.ofNat (headerOf (List.replicate 8 0)) ::
    nonzero (List.replicate 8 0) = [0] := by decide

/-- The byte that is not counted makes a block of zeros. -/
theorem zeroed (h : Inv srcv k p) (hz : p.ffN = 0) (hend : srcv.length ≤ 8 * k) :
    ∃ bs z, toBytes ((List.range (p.buffer.length - p.size)).foldl
        (fun buffer i => buffer.put (p.size + i) (some 0)) p.buffer).toList = Block.encodeAll bs ∧
      Block.plainAll bs = bytesFrom srcv 0 (8 * k + z) ∧
      (z = 0 ∨ z = 8 ∧ 8 ≤ 8 * k ∧ 8 * k ≤ srcv.length ∧ 0 ∉ bytesFrom srcv (8 * k - 8) 8) := by
  obtain ⟨bs, hb, hc | ho⟩ := h.blocks
  · have hle := h.length
    have hge := hc.written
    have hsize := hc.size
    rw [Buffer.foldl_put]
    by_cases hover : p.buffer.length = p.size + 1
    · have hzero : 0 ∈ List.replicate 8 (0 : UInt8) := by decide
      refine ⟨bs ++ [.seg (List.replicate 8 0) rfl hzero], 8, ?_, ?_, .inr ⟨rfl, h.surplus hover⟩⟩
      · rw [hover, Nat.add_sub_cancel_left, Block.encodeAll_append, Block.encodeAll_singleton,
          Block.encode, encode_zeros]
        apply Buffer.Holds.toBytes
        · apply Buffer.Holds.append
          · exact hb.frame (.inl (by omega))
          · rw [Nat.zero_add, hsize]
            exact Buffer.Holds.writeAll p.buffer p.size [some 0]
        · have hone : (List.range 1).map (fun _ => some (0 : UInt8)) = [some 0] := rfl
          rw [hone, Buffer.writeAll_length _ _ _ (List.cons_ne_nil _ _), List.length_append, hsize,
            List.length_singleton, List.length_singleton]
          omega
      · rw [Block.plainAll_append, Block.plainAll_singleton, Block.plain, hc.plain,
          bytesFrom_append]
        congr 1
        symm
        rw [List.eq_replicate_iff]
        refine ⟨bytesFrom_length .., fun x hx => ?_⟩
        obtain ⟨j, -, rfl⟩ := List.mem_map.mp hx
        rw [byteAt, List.getElem?_eq_none (by omega)]
        rfl
    · refine ⟨bs, 0, ?_, hc.plain, .inl rfl⟩
      rw [show p.buffer.length - p.size = 0 by omega]
      exact hb.toBytes (by omega)
  · have := ho.pos
    omega

/-- What is left of a run is written out at the end. -/
theorem finish_bytes (srcv : Bytes) (hsmall : srcv.length ≤ 536870912) :
    ∃ bs z, toBytes (pack srcv) = Block.encodeAll bs ∧
      Block.plainAll bs = bytesFrom srcv 0 (8 * ((srcv.length + 7) / 8) + z) ∧
      (z = 0 ∨ z = 8 ∧ 8 ≤ 8 * ((srcv.length + 7) / 8) ∧
        8 * ((srcv.length + 7) / 8) ≤ srcv.length ∧
        0 ∉ bytesFrom srcv (8 * ((srcv.length + 7) / 8) - 8) 8) := by
  obtain ⟨hi, hlt⟩ := loop_inv srcv hsmall ((srcv.length + 7) / 8) (by omega)
  rw [pack]
  generalize hN : (srcv.length + 7) / 8 = N at hi hlt
  generalize loop srcv N = p at hi hlt
  have hbufsz := hi.bufsz
  have hle := hi.small
  rw [finish, if_pos (by omega)]
  by_cases hz : p.ffN = 0
  · rw [if_neg (by omega), if_neg (by omega)]
    exact zeroed hi hz (by omega)
  · obtain ⟨bs, hb, hc | ho⟩ := hi.blocks
    · exact absurd hc.zero hz
    have hidx := ho.idx
    have hinside := ho.inside
    by_cases h1 : p.ffN = 1
    · rw [if_pos h1]
      exact zeroed (hi.flush (by omega) (by omega) (by omega) (.inl (by omega))) rfl (by omega)
    · rw [if_neg h1, if_pos (by omega)]
      exact zeroed (hi.flush (by omega) (by omega) (by omega) (.inr (by omega))) rfl (by omega)

end Pack

/-- What is unpacked ends with the zeros that fill up the last eight bytes and those of `finish`. -/
theorem unpack_zeros (b : Bytes) (hb : b.length ≤ 536870912) :
    ∃ z, unpack (toBytes (pack b)) =
        (b ++ List.replicate (8 * ((b.length + 7) / 8) - b.length + z) 0).map some ∧
      (z = 0 ∨ z = 8 ∧ 8 ≤ 8 * ((b.length + 7) / 8) ∧ 8 * ((b.length + 7) / 8) ≤ b.length ∧
        0 ∉ bytesFrom b (8 * ((b.length + 7) / 8) - 8) 8) := by
  obtain ⟨bs, z, hpack, hplain, hz⟩ := Pack.finish_bytes b hb
  have hN : 8 * ((b.length + 7) / 8) + z =
      b.length + (8 * ((b.length + 7) / 8) - b.length + z) := by
    omega
  rw [hN, bytesFrom_all] at hplain
  refine ⟨z, ?_, hz⟩
  rw [hpack, unpack_encodeAll, hplain]
  rw [hplain, List.length_append, List.length_replicate]
  omega

/-- Unpacking gives back what was packed, with the zeros that fill up the last eight bytes, and
eight more at most where these bytes are all of the message and none of them is zero. -/
theorem unpack_pack (b : Bytes) (hb : b.length ≤ 536870912) :
    ∃ z, unpack (toBytes (pack b)) = (b ++ List.replicate z 0).map some ∧
      8 ∣ b.length + z ∧ (z < 8 ∨ z = 8 ∧ 8 ≤ b.length ∧ 0 ∉ b.drop (b.length - 8)) := by
  obtain ⟨z, hunpack, hz⟩ := unpack_zeros b hb
  refine ⟨8 * ((b.length + 7) / 8) - b.length + z, hunpack, ?_, ?_⟩
  · omega
  · obtain rfl | ⟨rfl, h8, hle, hfull⟩ := hz
    · exact .inl (by omega)
    · refine .inr ⟨by omega, by omega, ?_⟩
      rwa [show 8 * ((b.length + 7) / 8) = b.length by omega, bytesFrom_drop (by omega)] at hfull

theorem unpack_pack_two : ∃ z, unpack (toBytes (pack [0, 7])) =
    (([0, 7] : Bytes) ++ List.replicate z 0).map some ∧ 8 ∣ 2 + z ∧
      (z < 8 ∨ z = 8 ∧ 8 ≤ 2 ∧ 0 ∉ ([0, 7] : Bytes).drop (2 - 8)) :=
  unpack_pack [0, 7] (by decide)

end Sdk

end Skyext
