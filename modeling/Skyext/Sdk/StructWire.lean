import Skyext.Sdk.Wire

namespace Skyext
set_option autoImplicit true

namespace Sdk

namespace Buffer

variable {b : Buffer}

/-- There is nothing behind the end of an array. -/
def Tidy (b : Buffer) : Prop := ∀ i, b.length ≤ i → b.get i = none

theorem writeAll_length_le (b : Buffer) (i : Nat) (vs : List (Option UInt8)) :
    (b.writeAll i vs).length ≤ max b.length (i + vs.length) := by
  cases vs with
  | nil => exact Nat.le_max_left ..
  | cons v vs => rw [writeAll_length _ _ _ (List.cons_ne_nil v vs)]

theorem Tidy.writeAll (h : b.Tidy) (i : Nat) (vs : List (Option UInt8)) :
    (b.writeAll i vs).Tidy := by
  intro j hj
  cases vs with
  | nil => exact h j hj
  | cons v vs =>
    rw [writeAll_length _ _ _ (List.cons_ne_nil v vs)] at hj
    rw [writeAll_get_ge (by omega)]
    exact h j (by omega)

theorem putWord_eq (b : Buffer) (i v : Nat) :
    b.putWord i v = b.writeAll i ((littleEndian 2 v).map some) := by
  simp only [putWord, littleEndian, List.map_cons, List.map_nil, writeAll,
    Nat.shiftRight_eq_div_pow]
  rw [ofNat_eq v v rfl, ofNat_eq (v / 2 ^ 8) ((v : Int) / 256) (by omega)]

theorem slice_writeAll (b : Buffer) (i : Nat) (vs : List (Option UInt8)) :
    (b.writeAll i vs).slice i (i + vs.length) = vs := by
  cases vs with
  | nil =>
    have hle : min (i + 0) b.length - i = 0 := by omega
    rw [slice, List.length_nil, Buffer.writeAll, hle]
    rfl
  | cons v vs =>
    generalize hw : v :: vs = ws
    have hne : ws ≠ [] := by
      rw [← hw]
      exact List.cons_ne_nil v vs
    have hlen : min (i + ws.length) (b.writeAll i ws).length - i = ws.length := by
      rw [writeAll_length _ _ _ hne]
      omega
    rw [slice, hlen]
    apply List.ext_getElem
    · rw [List.length_map, List.length_range]
    · intro k hk hk'
      rw [List.getElem_map, List.getElem_range]
      exact writeAll_get (List.getElem?_eq_getElem hk')

theorem truncate_eq (h : b.Tidy) (hstart : b.length = i) (hj : i ≤ j) (vs : List (Option UInt8)) :
    ((b.writeAll j vs).writeAll i vs).truncate (i + vs.length) = b.writeAll i vs := by
  have hget : ∀ k, (((b.writeAll j vs).writeAll i vs).truncate (i + vs.length)).get k =
      (b.writeAll i vs).get k := by
    intro k
    simp only [truncate]
    by_cases hk : k < i + vs.length
    · rw [if_pos hk]
      by_cases hki : k < i
      · rw [writeAll_get_lt hki, writeAll_get_lt hki, writeAll_get_lt (by omega)]
      · obtain ⟨m, rfl⟩ := Nat.exists_eq_add_of_le (Nat.not_lt.mp hki)
        have hm : vs[m]? = some vs[m] := List.getElem?_eq_getElem (by omega)
        rw [writeAll_get hm, writeAll_get hm]
    · rw [if_neg hk, writeAll_get_ge (by omega)]
      exact (h k (by omega)).symm
  have hlen : (((b.writeAll j vs).writeAll i vs).truncate (i + vs.length)).length =
      (b.writeAll i vs).length := by
    simp only [truncate]
    cases vs with
    | nil => exact (Nat.min_eq_left (Nat.le_of_eq hstart)).trans rfl
    | cons v vs =>
      rw [writeAll_length _ i _ (List.cons_ne_nil v vs),
        writeAll_length b j _ (List.cons_ne_nil v vs),
        writeAll_length b i _ (List.cons_ne_nil v vs)]
      omega
  generalize ((b.writeAll j vs).writeAll i vs).truncate (i + vs.length) = c at hget hlen
  generalize b.writeAll i vs = d at hget hlen
  cases c
  cases d
  simp only [Buffer.mk.injEq]
  exact ⟨hlen, funext hget⟩

theorem toList_writeAll (vs : List (Option UInt8)) : (writeAll {} 0 vs).toList = vs := by
  have hslice := slice_writeAll {} 0 vs
  have hlen : (writeAll {} 0 vs).length = vs.length := by
    cases vs with
    | nil => rfl
    | cons v vs =>
      rw [writeAll_length _ _ _ (List.cons_ne_nil v vs), Nat.zero_add]
      exact Nat.zero_max _
  rw [slice, hlen, Nat.zero_add, Nat.min_self, Nat.sub_zero] at hslice
  rw [toList, hlen]
  simpa only [Nat.zero_add] using hslice

end Buffer

theorem fillSize_eq (b : Buffer) (i : Nat) (d : Bytes) :
    fillSize (b.writeAll (i + 4) (d.map some)) i d.length =
      ((sized d).length, b.writeAll i ((sized d).map some)) := by
  rw [fillSize, Buffer.putDword_eq, sized, List.length_append, littleEndian_length, Nat.add_comm 4,
    List.map_append, Buffer.writeAll_append, List.length_map, littleEndian_length,
    Buffer.writeAll_comm _ _ _ (by rw [List.length_map, littleEndian_length])]

def written (b : Buffer) (i : Nat) (d : Bytes) : Nat × Buffer :=
  (d.length, b.writeAll i (d.map some))

def Part.fieldCode (b : Buffer) (i : Nat) : Part → FieldCode
  | inline v => ⟨(v + 1) * 2, 2, b⟩
  | data d => ⟨0, (sized d).length, b.writeAll i ((sized d).map some)⟩

theorem encodeScalar_eq (v : Integer) (b : Buffer) (i : Nat) :
    SprotoInstance.encodeScalar v.code b i = (integerPart v.value).fieldCode b i := by
  obtain ⟨hv, hcode⟩ | ⟨hv, hcode⟩ := code_cases v
  · rw [hcode, SprotoInstance.encodeScalar, integerPart, if_pos hv]
    by_cases hlt : (v.value % 4294967296).toNat < 0x7fff
    · rw [if_pos hlt, if_pos hlt]
      rfl
    · have hword : littleEndian 4 ((v.value % 4294967296).toNat : Int) = littleEndian 4 v.value :=
        littleEndian_four _ _ (by omega)
      have hfill := fillSize_eq b i (littleEndian 4 v.value)
      rw [littleEndian_length] at hfill
      rw [if_neg hlt, if_neg hlt, encodeInteger, Buffer.putDword_eq, hword, hfill]
      rfl
  · have hfill := fillSize_eq b i (littleEndian 8 v.value)
    rw [littleEndian_length] at hfill
    rw [hcode, SprotoInstance.encodeScalar, integerPart,
      if_neg (by rw [hv]; exact Bool.false_ne_true), encodeUint64, Buffer.putUint64_eq,
      uint64_bytes, hfill]
    rfl

def SubOk (sub : SubEncode) (wire : SprotoType → Value → Option Bytes) : Prop :=
  ∀ st v b i, b.Tidy → b.length ≤ i → sub st v b i = (wire st v).map (written b i)

section Encoded

variable {sp : SprotoInstance} {sub : SubEncode} {wire : SprotoType → Value → Option Bytes}
  {b : Buffer} {i : Nat}

theorem encodeValue_eq (hsub : SubOk sub wire) (f : SprotoField) (v : Value) (ht : b.Tidy)
    (hb : b.length ≤ i) :
    sp.encodeValue sub f v b i = (sp.valueBytes wire f v).map (written b i) := by
  unfold SprotoInstance.encodeValue SprotoInstance.valueBytes
  cases f.type with
  | integer => rfl
  | boolean => rfl
  | string => rfl
  | struct =>
    cases sp.subtype f with
    | none => rfl
    | some st => exact hsub st v b i ht hb

theorem encodeObject_eq (hsub : SubOk sub wire) (f : SprotoField) (v : Value) (ht : b.Tidy)
    (hb : b.length ≤ i) :
    sp.encodeObject sub f v b i =
      (sp.valueBytes wire f v).map fun d => written b i (sized d) := by
  rw [SprotoInstance.encodeObject, encodeValue_eq hsub f v ht (Nat.le_add_right_of_le hb),
    Option.map_map]
  congr 1
  funext d
  exact fillSize_eq b i d

theorem encodeItem_eq (hsub : SubOk sub wire) (f : SprotoField) (v : Value) (ht : b.Tidy)
    (hb : b.length ≤ i) :
    sp.encodeItem sub f (i, b) v = (sp.valueBytes wire f v).map fun d =>
      (i + (sized d).length, b.writeAll i ((sized d).map some)) := by
  rw [SprotoInstance.encodeItem, encodeValue_eq hsub f v ht (Nat.le_add_right_of_le hb),
    Option.map_map]
  congr 1
  funext d
  simp only [Function.comp_apply, written, fillSize_eq, Prod.mk.injEq, and_true]
  rw [sized, List.length_append, littleEndian_length, Nat.add_assoc]

theorem encodeItems_eq (hsub : SubOk sub wire) (f : SprotoField) (items : List Value)
    (ht : b.Tidy) (hb : b.length ≤ i) :
    items.foldlM (sp.encodeItem sub f) (i, b) =
      (items.mapM (sp.valueBytes wire f)).map fun ds =>
        (i + (ds.flatMap sized).length, b.writeAll i ((ds.flatMap sized).map some)) := by
  induction items generalizing i b with
  | nil => rfl
  | cons v items ih =>
    rw [List.foldlM_cons, encodeItem_eq hsub f v ht hb, List.mapM_cons]
    cases sp.valueBytes wire f v with
    | none => rfl
    | some d =>
      have hle := b.writeAll_length_le i ((sized d).map some)
      rw [List.length_map] at hle
      have hrest := ih (i := i + (sized d).length) (ht.writeAll i ((sized d).map some)) (by omega)
      simp only [Option.map_some, Option.bind_eq_bind, Option.bind_some, hrest]
      cases items.mapM (sp.valueBytes wire f) with
      | none => rfl
      | some ds =>
        simp only [Option.map_some, Option.bind_some, Option.pure_def, List.flatMap_cons,
          List.length_append, List.map_append, Buffer.writeAll_append, List.length_map,
          Nat.add_assoc]

theorem booleans_eq (items : List Value) (b : Buffer) (i : Nat) :
    items.foldl SprotoInstance.encodeBoolean (i, b) =
      (i + items.length,
        b.writeAll i ((items.map fun v => UInt8.ofNat v.booleanCode).map some)) := by
  induction items generalizing i b with
  | nil => rfl
  | cons v items ih =>
    rw [List.foldl_cons, SprotoInstance.encodeBoolean, ih, List.length_cons, Nat.add_right_comm]
    rfl

theorem encodeObjects_eq (hsub : SubOk sub wire) (f : SprotoField) (items : List Value)
    (ht : b.Tidy) (hb : b.length ≤ i) :
    ((items.foldlM (sp.encodeItem sub f) (i + 4, b)).map fun s =>
      fillSize s.2 i (s.1 - (i + 4))) =
      ((items.mapM (sp.valueBytes wire f)).map fun ds => ds.flatMap sized).map fun d =>
        written b i (sized d) := by
  rw [encodeItems_eq hsub f items ht (Nat.le_add_right_of_le hb), Option.map_map, Option.map_map]
  congr 1
  funext ds
  simp only [Function.comp_apply, Nat.add_sub_cancel_left, fillSize_eq]
  rfl

theorem encodeArray_spec (hsub : SubOk sub wire) (f : SprotoField) (items : List Value)
    (ht : b.Tidy) (hb : b.length ≤ i) :
    sp.encodeItems sub f items b i =
      (sp.itemsBytes wire f items).map fun d => written b i (sized d) := by
  unfold SprotoInstance.encodeItems SprotoInstance.itemsBytes
  cases f.type with
  | integer =>
    simp only [Option.map_map]
    congr 1
    funext xs
    rw [encodeArray_eq, arrayBytes_sized]
    rfl
  | boolean =>
    have hlen : (items.map fun v => UInt8.ofNat v.booleanCode).length = items.length :=
      List.length_map ..
    simp only [booleans_eq, Nat.add_sub_cancel_left, Option.map_some]
    rw [← hlen, fillSize_eq]
    rfl
  | string => exact encodeObjects_eq hsub f items ht hb
  | struct => exact encodeObjects_eq hsub f items ht hb

/-- What is left when a field has been looked at of which there may be nothing. -/
def fieldCodeOf (b : Buffer) (i : Nat) (p : Option Part) : FieldCode :=
  p.elim ⟨0, 0, b⟩ (Part.fieldCode b i)

theorem encodeField_eq (hsub : SubOk sub wire) (indata : Value) (f : SprotoField) (ht : b.Tidy)
    (hb : b.length ≤ i) :
    sp.encodeField sub indata f b i = (sp.fieldPart wire indata f).map (fieldCodeOf b i) := by
  unfold SprotoInstance.encodeField SprotoInstance.fieldPart
  by_cases hplain : indata.isPlain = false
  · rw [if_pos hplain, if_pos hplain]
    rfl
  rw [if_neg hplain, if_neg hplain]
  by_cases harray : f.array = true
  · have hitems : sp.encodeItems sub f ((indata.member f.name).elim [] Value.items) b i = _ :=
      encodeArray_spec hsub f _ ht hb
    simp only [if_pos harray, hitems, Option.map_map]
    rfl
  · rw [if_neg harray, if_neg harray]
    cases indata.member f.name with
    | none => rfl
    | some target =>
      have hobject : (sp.encodeObject sub f target b i).map
          (fun r => (⟨0, r.1, r.2⟩ : FieldCode)) =
          ((sp.valueBytes wire f target).map fun d => some (Part.data d)).map
            (fieldCodeOf b i) := by
        rw [encodeObject_eq hsub f target ht hb, Option.map_map, Option.map_map]
        rfl
      cases f.type with
      | integer =>
        simp only [Option.map_map]
        congr 1
        funext v
        exact encodeScalar_eq v b i
      | boolean =>
        have hlt : target.booleanCode < 0x7fff := by
          unfold Value.booleanCode
          split <;> decide
        simp only [SprotoInstance.encodeScalar, if_pos hlt]
        rfl
      | string => exact hobject
      | struct => exact hobject

end Encoded

/-- A header without its number of words, and the data behind the room for it. -/
def layout (b : Buffer) (h maxn : Nat) (ws : List Nat) (d : Bytes) : Buffer :=
  (b.writeAll (h + 2) ((wordsBytes ws).map some)).writeAll (h + 2 + 2 * maxn) (d.map some)

section Layout

variable {b : Buffer} {h maxn : Nat}

theorem layout_word (ws : List Nat) (w : Nat) (d : Bytes) (hroom : ws.length + 1 ≤ maxn) :
    (layout b h maxn ws d).putWord (h + 2 + 2 * ws.length) w = layout b h maxn (ws ++ [w]) d := by
  rw [Buffer.putWord_eq, layout, Buffer.writeAll_comm _ _ _ (by
    rw [List.length_map, littleEndian_length]; omega), layout, wordsBytes_snoc, List.map_append,
    Buffer.writeAll_append, List.length_map, wordsBytes_length]

theorem layout_data (ws : List Nat) (d e : Bytes) :
    (layout b h maxn ws d).writeAll (h + 2 + 2 * maxn + d.length) (e.map some) =
      layout b h maxn ws (d ++ e) := by
  rw [layout, layout, List.map_append, Buffer.writeAll_append, List.length_map]

theorem layout_header (ws : List Nat) (d : Bytes) (hroom : ws.length ≤ maxn) :
    (layout b h maxn ws d).putWord h ws.length =
      (b.writeAll h ((littleEndian 2 ws.length ++ wordsBytes ws).map some)).writeAll
        (h + 2 + 2 * maxn) (d.map some) := by
  have hlen : ((littleEndian 2 ws.length).map some).length = 2 := by
    rw [List.length_map, littleEndian_length]
  have hdata : h + ((littleEndian 2 ws.length).map some).length ≤ h + 2 + 2 * maxn := by omega
  have hwords : h + ((littleEndian 2 ws.length).map some).length ≤ h + 2 := by omega
  rw [Buffer.putWord_eq, layout, Buffer.writeAll_comm _ _ _ hdata,
    Buffer.writeAll_comm _ _ _ hwords, List.map_append, Buffer.writeAll_append, hlen]

theorem layout_tidy (ht : b.Tidy) (ws : List Nat) (d : Bytes) : (layout b h maxn ws d).Tidy :=
  Buffer.Tidy.writeAll (Buffer.Tidy.writeAll ht _ _) _ _

theorem layout_length (hb : b.length ≤ h) (ws : List Nat) (d : Bytes)
    (hroom : ws.length ≤ maxn) :
    (layout b h maxn ws d).length ≤ h + 2 + 2 * maxn + d.length := by
  have hle := b.writeAll_length_le (h + 2) ((wordsBytes ws).map some)
  rw [List.length_map, wordsBytes_length] at hle
  refine Nat.le_trans (Buffer.writeAll_length_le ..) ?_
  rw [List.length_map]
  omega

end Layout

def Encode.after (b : Buffer) (h maxn : Nat) (ps : List (SprotoField × Part)) : Encode :=
  ⟨layout b h maxn (words 0 ps) (partsBytes ps), h + 2 + 2 * maxn + (partsBytes ps).length,
    (words 0 ps).length, nextTag 0 ps⟩

section Fields

variable {b : Buffer} {h maxn : Nat} {ps : List (SprotoField × Part)}

theorem record_eq (f : SprotoField) (p : Part) (code : FieldCode) (hsz : 0 < code.sz)
    (hvalue : code.value = p.word)
    (hdata : (if p.word = 0 then (Encode.after b h maxn ps).dataIdx + code.sz
      else (Encode.after b h maxn ps).dataIdx) =
        (Encode.after b h maxn (ps ++ [(f, p)])).dataIdx)
    (hbuf : code.buffer = layout b h maxn (words 0 ps) (partsBytes (ps ++ [(f, p)])))
    (hroom : (words 0 (ps ++ [(f, p)])).length ≤ maxn) :
    Encode.record h f (Encode.after b h maxn ps) code =
      some (Encode.after b h maxn (ps ++ [(f, p)])) := by
  have htag := f.tag_le
  have hwords := words_append 0 ps [(f, p)]
  rw [words, words] at hwords
  rw [Encode.record, if_pos hsz]
  simp only [hvalue, hdata, hbuf]
  simp only [Encode.after, nextTag_snoc]
  by_cases hgap : nextTag 0 ps < f.tag
  · have hsmall : ¬ 0xffff < (f.tag - nextTag 0 ps - 1) * 2 + 1 := by omega
    have hsnoc : (words 0 ps ++ [(f.tag - nextTag 0 ps - 1) * 2 + 1]).length =
        (words 0 ps).length + 1 := List.length_append
    rw [if_pos hgap] at hwords
    rw [hwords, ← List.append_assoc, List.length_append, List.length_append,
      List.length_singleton, List.length_singleton] at hroom
    rw [if_pos (Nat.sub_pos_of_lt hgap), if_neg hsmall, layout_word _ _ _ (by omega),
      show h + 2 + 2 * (words 0 ps).length + 2 =
        h + 2 + 2 * (words 0 ps ++ [(f.tag - nextTag 0 ps - 1) * 2 + 1]).length by omega,
      layout_word _ _ _ (by omega), hwords, ← List.append_assoc, List.length_append, hsnoc]
    rfl
  · rw [if_neg hgap, List.nil_append] at hwords
    rw [hwords, List.length_append, List.length_singleton] at hroom
    rw [if_neg (by omega), layout_word _ _ _ hroom, hwords, List.length_append]
    rfl

theorem record_part (f : SprotoField) (p : Part)
    (hroom : (words 0 (ps ++ [(f, p)])).length ≤ maxn) :
    Encode.record h f (Encode.after b h maxn ps) (p.fieldCode (Encode.after b h maxn ps).buffer
      (Encode.after b h maxn ps).dataIdx) = some (Encode.after b h maxn (ps ++ [(f, p)])) := by
  cases p with
  | inline v =>
    have hbytes : partsBytes (ps ++ [(f, Part.inline v)]) = partsBytes ps := by
      rw [partsBytes_snoc, Part.bytes, List.append_nil]
    refine record_eq f _ _ Nat.zero_lt_two rfl ?_ ?_ hroom
    · rw [if_neg (Part.word_inline v), Encode.after, Encode.after, hbytes]
    · rw [hbytes]
      rfl
  | data d =>
    refine record_eq f _ _ ?_ rfl ?_ ?_ hroom
    · rw [Part.fieldCode, sized, List.length_append, littleEndian_length]
      exact Nat.lt_add_right _ (by decide)
    · rw [if_pos (Part.word_data d), Encode.after, Encode.after, partsBytes_snoc,
        List.length_append, ← Nat.add_assoc]
      rfl
    · simp only [partsBytes_snoc, Part.fieldCode, Encode.after, Part.bytes, layout_data]

theorem finish_after (ht : b.Tidy) (hb : b.length ≤ h) (hroom : (words 0 ps).length ≤ maxn) :
    Encode.finish h maxn (Encode.after b h maxn ps) = written b h (message ps) := by
  have hlen : (b.writeAll h
      ((littleEndian 2 (words 0 ps).length ++ wordsBytes (words 0 ps)).map some)).length =
        h + 2 + 2 * (words 0 ps).length := by
    rw [Buffer.writeAll_length _ _ _ (by simp [littleEndian]), List.length_map, List.length_append,
      littleEndian_length, wordsBytes_length]
    omega
  have hstart :
      ((littleEndian 2 (words 0 ps).length ++ wordsBytes (words 0 ps)).map some).length =
        2 + 2 * (words 0 ps).length := by
    rw [List.length_map, List.length_append, littleEndian_length, wordsBytes_length]
  have hslice := Buffer.slice_writeAll (b.writeAll h
    ((littleEndian 2 (words 0 ps).length ++ wordsBytes (words 0 ps)).map some))
    (h + 2 + 2 * maxn) ((partsBytes ps).map some)
  rw [List.length_map] at hslice
  simp only [Encode.finish, Encode.after, layout_header _ _ hroom, Nat.add_sub_cancel_left, hslice]
  rw [written, message_length, message]
  generalize littleEndian 2 (words 0 ps).length ++ wordsBytes (words 0 ps) = header
    at hlen hstart
  rw [List.map_append, Buffer.writeAll_append, hstart, ← Nat.add_assoc]
  congr 1
  split
  · exact Buffer.truncate_eq (ht.writeAll _ _) hlen (by omega) _
  · next hmaxn => rw [show maxn = (words 0 ps).length by omega]

theorem encodeFields_after {field : SprotoField → Buffer → Nat → Option FieldCode}
    {part : SprotoField → Option (Option Part)} (ht : b.Tidy) (hb : b.length ≤ h)
    (hfield : ∀ f c i, c.Tidy → c.length ≤ i → field f c i = (part f).map (fieldCodeOf c i))
    (fs : List SprotoField) (hroom : (words 0 ps).length + slots (nextTag 0 ps) fs ≤ maxn) :
    (fs.foldlM (fun s f => (field f s.buffer s.dataIdx).bind (Encode.record h f s))
      (Encode.after b h maxn ps)).map (Encode.finish h maxn) =
      (gather part fs).map fun qs => written b h (message (ps ++ qs)) := by
  induction fs generalizing ps with
  | nil =>
    rw [List.foldlM_nil, gather, Option.pure_def, Option.map_some, Option.map_some,
      List.append_nil, finish_after ht hb hroom]
  | cons f fs ih =>
    have hcode : field f (Encode.after b h maxn ps).buffer (Encode.after b h maxn ps).dataIdx =
        (part f).map (fieldCodeOf (Encode.after b h maxn ps).buffer
          (Encode.after b h maxn ps).dataIdx) :=
      hfield f _ _ (layout_tidy ht (words 0 ps) (partsBytes ps))
        (layout_length hb (words 0 ps) (partsBytes ps) (by omega))
    rw [List.foldlM_cons, gather]
    simp only [hcode]
    cases part f with
    | none => rfl
    | some p =>
      cases p with
      | none =>
        have hskip := slots_skip (nextTag 0 ps) f fs
        simp only [Option.bind_some, Option.map_none, Option.toList_none, List.nil_append,
          Option.map_id']
        exact ih (by omega)
      | some p =>
        have hroom' : (words 0 (ps ++ [(f, p)])).length +
            slots (nextTag 0 (ps ++ [(f, p)])) fs ≤ maxn := by
          rw [slots] at hroom
          rw [words_snoc_length ps f p, nextTag_snoc]
          omega
        have hrecord : Encode.record h f (Encode.after b h maxn ps)
            (fieldCodeOf (Encode.after b h maxn ps).buffer (Encode.after b h maxn ps).dataIdx
              (some p)) = some (Encode.after b h maxn (ps ++ [(f, p)])) :=
          record_part f p (Nat.le_of_add_right_le hroom')
        simp only [Option.map_some, Option.bind_some, Option.bind_eq_bind, hrecord, ih hroom',
          Option.map_map]
        congr 1
        funext qs
        simp only [Function.comp_apply, Option.toList_some, List.append_assoc]

theorem encodeFields_eq {field : SprotoField → Buffer → Nat → Option FieldCode}
    {part : SprotoField → Option (Option Part)} (ht : b.Tidy) (hb : b.length ≤ h)
    (hfield : ∀ f c i, c.Tidy → c.length ≤ i → field f c i = (part f).map (fieldCodeOf c i))
    (st : SprotoType) :
    SprotoInstance.encodeFields st field b h =
      (gather part st.f).map fun ps => written b h (message ps) := by
  have hroom : (words 0 []).length + slots (nextTag 0 []) st.f ≤ st.maxn := by
    rw [st.maxn_eq]
    exact Nat.le_of_eq (Nat.zero_add _)
  have hstart : (⟨b, h + 2 + 2 * st.maxn, 0, 0⟩ : Encode) = Encode.after b h st.maxn [] := rfl
  rw [SprotoInstance.encodeFields, hstart, encodeFields_after ht hb hfield st.f hroom]
  rfl

end Fields

/-- A message is written at its place as one block, whatever messages are in it. -/
theorem sprotoEncode_ok (sp : SprotoInstance) (level : Nat) :
    SubOk (sp.sprotoEncode level) (sp.structBytes level) := by
  induction level with
  | zero =>
    intro st v b i ht hb
    have hnone : SprotoInstance.encodeFields st (fun _ _ _ => none) b i =
        (gather (fun _ => none) st.f).map fun ps => written b i (message ps) :=
      encodeFields_eq ht hb (fun _ _ _ _ _ => (Option.map_none _).symm) st
    rw [SprotoInstance.sprotoEncode, SprotoInstance.structBytes, hnone]
    cases st.f with
    | nil => rfl
    | cons f fs => rfl
  | succ level ih =>
    intro st v b i ht hb
    rw [SprotoInstance.sprotoEncode, SprotoInstance.structBytes, Option.map_map,
      encodeFields_eq ht hb fun f c i hc hi => encodeField_eq ih v f hc hi]
    rfl

theorem encode_eq (sp : SprotoInstance) (st : SprotoType) (indata : Value) :
    sp.encode st indata = (sp.structBytes 64 st indata).map fun d => d.map some := by
  rw [SprotoInstance.encode, sprotoEncode_ok sp 64 st indata {} 0 (fun _ _ => rfl) (Nat.le_refl 0),
    Option.map_map]
  congr 1
  funext d
  exact Buffer.toList_writeAll (d.map some)

/-- For every schema and every value: what `encode` answers are the bytes of the value's message,
and there is no answer where there is no message. -/
theorem encode_message (sp : SprotoInstance) (st : SprotoType) (indata : Value)
    (r : List (Option UInt8)) :
    sp.encode st indata = some r ↔ ∃ d, sp.structBytes 64 st indata = some d ∧ d.map some = r := by
  rw [encode_eq, Option.map_eq_some_iff]

/-- A word for the two tags that are left out, one for the integer, and no room for the string. -/
example : SprotoInstance.encode []
    ⟨[{ tag := 0, name := "a", type := .string }, { tag := 3, name := "b", type := .integer }],
      none, 3, rfl, by decide, fun b h => absurd h (Option.not_mem_none b), by decide⟩
    (.object [("b", .integer (.number 7))]) = some ([2, 0, 5, 0, 16, 0].map some) := by decide

end Sdk

end Skyext
