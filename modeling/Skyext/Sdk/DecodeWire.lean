import Skyext.Sdk.Decode
import Skyext.Sdk.StructWire

namespace Skyext
set_option autoImplicit true

namespace Sdk

def readInteger (x : Int) : Integer := if small x then .number x else readWide x

namespace SprotoInstance

section Back

variable (sp : SprotoInstance) (back : SprotoType → Value → Value)

def valueBack (f : SprotoField) (target : Value) : Value :=
  match f.type with
  | .string => Value.ofBytes f.extra ((target.stringBytes f.extra).getD [])
  | .struct => (sp.subtype f).elim .null fun st => back st target
  | _ => .null

def itemsBack (f : SprotoField) (items : List Value) : List Value :=
  match f.type with
  | .integer =>
    let xs := ((items.mapM Value.integer?).getD []).map Integer.value
    xs.map fun x => .integer (readItem xs x)
  | .boolean => items.map fun v => Value.ofBoolean v.booleanCode
  | _ => items.map (sp.valueBack back f)

def scalarBack (f : SprotoField) (target : Value) : Value :=
  match f.type with
  | .integer => target.integer?.elim .null fun v => .integer (readInteger v.value)
  | .boolean => Value.ofBoolean target.booleanCode
  | _ => sp.valueBack back f target

def fieldBack (indata : Value) (f : SprotoField) : Option Value :=
  if f.array then
    some (.array (sp.itemsBack back f ((indata.member f.name).elim [] Value.items)))
  else (indata.member f.name).map (sp.scalarBack back f)

end Back

end SprotoInstance

def members (field : SprotoField → Option Value) (fs : List SprotoField)
    (ms : List (String × Value)) : List (String × Value) :=
  fs.foldl (fun ms f => (field f).elim ms fun v => Value.assign f.name v ms) ms

def SprotoInstance.structBack (sp : SprotoInstance) : Nat → SprotoType → Value → Value
  | 0, _, _ => .object []
  | level + 1, st, indata => .object (members (sp.fieldBack (sp.structBack level) indata) st.f [])

theorem toWord_littleEndian (x : Nat) (h : x < 65536) (rest : Bytes) :
    toWord (littleEndian 2 x ++ rest) = x := by
  have h0 : (UInt8.ofInt (x : Int)).toNat < 1 <<< 8 := (UInt8.ofInt (x : Int)).toNat_lt
  rw [toWord]
  simp only [littleEndian, byteAt, List.cons_append, List.getElem?_cons_zero,
    List.getElem?_cons_succ, Option.getD_some]
  rw [or_shift h0, ofInt_toNat, ofInt_toNat, Nat.shiftLeft_eq]
  omega

theorem drop_littleEndian (w : Nat) (x : Int) (rest : Bytes) :
    (littleEndian w x ++ rest).drop w = rest :=
  List.drop_left' (littleEndian_length w x)

theorem toDword_sized (d rest : Bytes) (h : d.length < 2147483648) :
    toDword (sized d ++ rest) = d.length := by
  rw [sized, List.append_assoc, toDword_littleEndian]
  omega

theorem drop_sized (d rest : Bytes) : (sized d ++ rest).drop 4 = d ++ rest := by
  rw [sized, List.append_assoc, drop_littleEndian]

theorem sized_length (d : Bytes) : (sized d).length = 4 + d.length := by
  rw [sized, List.length_append, littleEndian_length]

theorem Value.booleanCode_cases (v : Value) : v.booleanCode = 0 ∨ v.booleanCode = 1 := by
  unfold booleanCode
  split
  · exact .inr rfl
  · exact .inl rfl

theorem decodeInteger_bytes (x : Int) (d rest : Bytes) (h : integerPart x = .data d) :
    SprotoInstance.decodeInteger (sized d ++ rest) = some (readInteger x) := by
  unfold integerPart at h
  rw [readInteger]
  by_cases hx : small x = true
  · rw [if_pos hx] at h ⊢
    split at h
    · cases h
    · cases h
      have hsmall := small_iff.mp hx
      have hlen := toDword_sized (littleEndian 4 x) rest (by rw [littleEndian_length]; decide)
      rw [littleEndian_length] at hlen
      rw [SprotoInstance.decodeInteger, hlen, if_pos rfl, drop_sized, toDword_littleEndian,
        expand64_eq x hsmall.1 hsmall.2]
  · rw [if_neg hx] at h ⊢
    cases h
    have hlen := toDword_sized (littleEndian 8 x) rest (by rw [littleEndian_length]; decide)
    have hhigh : (sized (littleEndian 8 x) ++ rest).drop 8 =
        littleEndian 4 (x / 4294967296) ++ rest := by
      rw [show 8 = 4 + 4 from rfl, ← List.drop_drop, drop_sized, littleEndian_halves,
        List.append_assoc, drop_littleEndian]
    rw [littleEndian_length] at hlen
    rw [SprotoInstance.decodeInteger, hlen, if_neg (by decide), if_pos rfl, hhigh, drop_sized,
      littleEndian_halves, List.append_assoc, toDword_littleEndian, toDword_littleEndian, int64_eq]

/-- A part is read as a value, with its word and whatever stands behind its data. -/
def Part.ReadAs (read : Nat → Bytes → Option (Option Value)) (p : Part) (v : Value) : Prop :=
  p.word < 65536 ∧ p.word % 2 = 0 ∧ ∀ rest, read p.word (p.bytes ++ rest) = some (some v)

def BackOk (sub : SubDecode) (wire : SprotoType → Value → Option Bytes)
    (back : SprotoType → Value → Value) (n : Nat) : Prop :=
  ∀ st v d rest k, wire st v = some d → d.length < n →
    sub st (d ++ rest) (d.length + k) = some (d.length, back st v)

section Decoded

variable {sp : SprotoInstance} {sub : SubDecode} {wire : SprotoType → Value → Option Bytes}
  {back : SprotoType → Value → Value} {n : Nat}

theorem decodeValue_back (hsub : BackOk sub wire back n) (f : SprotoField) (v : Value)
    (d rest : Bytes) (hd : sp.valueBytes wire f v = some d) (hn : d.length < n) :
    sp.decodeValue sub f (d ++ rest) d.length = some (sp.valueBack back f v) := by
  unfold SprotoInstance.valueBytes at hd
  unfold SprotoInstance.decodeValue SprotoInstance.valueBack
  cases hf : f.type with
  | integer => simp only [hf, reduceCtorEq] at hd
  | boolean => simp only [hf, reduceCtorEq] at hd
  | string =>
    simp only [hf] at hd
    simp only [hd, Option.getD_some, List.take_left]
  | struct =>
    simp only [hf] at hd
    cases hst : sp.subtype f with
    | none => simp only [hst, Option.bind_none, reduceCtorEq] at hd
    | some st =>
      rw [hst, Option.bind_some] at hd
      have hread : sub st (d ++ rest) d.length = some (d.length, back st v) :=
        hsub st v d rest 0 hd hn
      simp only [Option.bind_some, Option.elim_some, hread, if_pos]

theorem decodeSized_back (hsub : BackOk sub wire back n) (f : SprotoField) (v : Value)
    (d rest : Bytes) (hd : sp.valueBytes wire f v = some d) (hn : d.length < n)
    (hlt : d.length < 2147483648) :
    sp.decodeValue sub f ((sized d ++ rest).drop 4) (toDword (sized d ++ rest)) =
      some (sp.valueBack back f v) := by
  rw [drop_sized, toDword_sized d rest hlt]
  exact decodeValue_back hsub f v d rest hd hn

theorem decodeArrayObject_back (hsub : BackOk sub wire back n) (f : SprotoField)
    (items : List Value) (ds : List Bytes) (rest : Bytes)
    (hds : items.mapM (sp.valueBytes wire f) = some ds) (hn : (ds.flatMap sized).length < n)
    (hlt : (ds.flatMap sized).length < 2147483648) :
    sp.decodeArrayObject sub f (ds.flatMap sized ++ rest) (ds.flatMap sized).length =
      some (items.map (sp.valueBack back f)) := by
  induction items generalizing ds with
  | nil =>
    cases hds
    rw [SprotoInstance.decodeArrayObject]
    rfl
  | cons v items ih =>
    simp only [List.mapM_cons, Option.bind_eq_bind, Option.bind_eq_some_iff, Option.pure_def,
      Option.some.injEq] at hds
    obtain ⟨d, hd, ds, hds, rfl⟩ := hds
    rw [List.flatMap_cons, List.length_append, sized_length] at hn hlt
    have hrest := ih ds hds (by omega) (by omega)
    have hvalue := decodeValue_back hsub f v d (ds.flatMap sized ++ rest) hd (by omega)
    rw [SprotoInstance.decodeArrayObject, List.flatMap_cons, List.length_append, sized_length,
      List.append_assoc, if_pos (by omega), if_neg (by omega)]
    simp only [toDword_sized d _ (by omega), drop_sized, hvalue, Option.bind_some,
      List.drop_left]
    rw [if_neg (by omega), show 4 + d.length + (ds.flatMap sized).length - 4 - d.length =
      (ds.flatMap sized).length by omega, hrest]
    rfl

theorem decodeItems_back (hsub : BackOk sub wire back n) (f : SprotoField) (items : List Value)
    (d rest : Bytes) (hd : sp.itemsBytes wire f items = some d) (hn : d.length < n)
    (hlt : d.length < 2147483648) :
    sp.decodeItems sub f (sized d ++ rest) = some (sp.itemsBack back f items) := by
  have hobjects {ds : List Bytes} (hds : items.mapM (sp.valueBytes wire f) = some ds)
      (h : ds.flatMap sized = d) :
      sp.decodeArrayObject sub f ((sized d ++ rest).drop 4) (toDword (sized d ++ rest)) =
        some (items.map (sp.valueBack back f)) := by
    subst h
    rw [drop_sized, toDword_sized _ rest hlt]
    exact decodeArrayObject_back hsub f items ds rest hds hn hlt
  unfold SprotoInstance.itemsBytes at hd
  unfold SprotoInstance.decodeItems SprotoInstance.itemsBack
  cases hf : f.type with
  | integer =>
    simp only [hf, Option.map_eq_some_iff] at hd ⊢
    obtain ⟨vs, hvs, rfl⟩ := hd
    have hlen : 8 * (vs.map Integer.value).length + 1 < 4294967296 := by
      rw [integersBytes] at hlt
      split at hlt
      · next h => rw [h]; decide
      · rw [List.length_cons, content_length] at hlt
        obtain ⟨-, hw⟩ | hw := width_cases (vs.map Integer.value) <;> rw [hw] at hlt <;> omega
    refine ⟨_, by rw [← arrayBytes_sized]; exact decodeArray_bytes _ rest hlen, ?_⟩
    rw [hvs, Option.getD_some, List.map_map]
    rfl
  | boolean =>
    simp only [hf, Option.some.injEq] at hd ⊢
    subst hd
    rw [toDword_sized _ rest hlt, drop_sized, List.length_map]
    apply List.ext_getElem
    · simp
    · intro i hi hi'
      rw [List.length_map, List.length_range] at hi
      rw [List.getElem_map, List.getElem_range, List.getElem_map, byteAt,
        List.getElem?_append_left (by rwa [List.length_map]), List.getElem?_map,
        List.getElem?_eq_getElem hi]
      obtain h | h := items[i].booleanCode_cases <;>
        simp only [Option.map_some, Option.getD_some, h] <;> rfl
  | string =>
    simp only [hf, Option.map_eq_some_iff] at hd ⊢
    obtain ⟨ds, hds, h⟩ := hd
    exact hobjects hds h
  | struct =>
    simp only [hf, Option.map_eq_some_iff] at hd ⊢
    obtain ⟨ds, hds, h⟩ := hd
    exact hobjects hds h

theorem setItems_back (f : SprotoField) (items : List Value) (d rest : Bytes)
    (hd : sp.itemsBytes wire f items = some d) (hlt : d.length < 2147483648) :
    SprotoInstance.setItems (sized d ++ rest) (sp.itemsBack back f items) =
      some (.array (sp.itemsBack back f items)) := by
  refine if_neg fun ⟨hitems, hsize⟩ => hsize ?_
  unfold SprotoInstance.itemsBack at hitems
  unfold SprotoInstance.itemsBytes at hd
  rw [toDword_sized d rest hlt]
  cases hf : f.type with
  | integer =>
    simp only [hf, Option.map_eq_some_iff] at hd hitems
    obtain ⟨vs, hvs, rfl⟩ := hd
    rw [hvs, Option.getD_some, List.map_eq_nil_iff] at hitems
    rw [hitems]
    rfl
  | boolean =>
    simp only [hf, Option.some.injEq, List.map_eq_nil_iff] at hd hitems
    subst hitems hd
    rfl
  | string =>
    simp only [hf, List.map_eq_nil_iff] at hd hitems
    subst hitems
    cases hd
    rfl
  | struct =>
    simp only [hf, List.map_eq_nil_iff] at hd hitems
    subst hitems
    cases hd
    rfl

theorem integerPart_inline (x : Int) (v : Nat) (h : integerPart x = .inline v) :
    v < 0x7fff ∧ readInteger x = .number v := by
  unfold integerPart at h
  split at h
  · next hx =>
    have hsmall := small_iff.mp hx
    split at h
    · next hlt =>
      cases h
      refine ⟨hlt, ?_⟩
      rw [readInteger, if_pos hx]
      congr 1
      omega
    · cases h
  · cases h

theorem inline_read (sp : SprotoInstance) (sub : SubDecode) (f : SprotoField) (v : Nat)
    (hv : v < 0x7fff) (harray : ¬ f.array = true) (x : Value)
    (hx : f.type = .integer ∧ x = .integer (.number v) ∨
      f.type = .boolean ∧ x = Value.ofBoolean v) :
    (Part.inline v).ReadAs (sp.decodeField sub f) x := by
  have hword : (Part.inline v).word = (v + 1) * 2 := rfl
  have hhalf : (v + 1) * 2 / 2 - 1 = v := by omega
  refine ⟨by omega, by omega, fun rest => ?_⟩
  rw [SprotoInstance.decodeField, if_neg harray, SprotoInstance.decodeScalar,
    if_neg (Part.word_inline v), hword, hhalf]
  obtain ⟨hf, rfl⟩ | ⟨hf, rfl⟩ := hx
  · simp only [hf, Option.map_some]
  · simp only [hf, Option.map_some]

theorem scalar_read (hsub : BackOk sub wire back n) (f : SprotoField) (target : Value) (d : Bytes)
    (harray : ¬ f.array = true) (hf : f.type = .string ∨ f.type = .struct)
    (hd : sp.valueBytes wire f target = some d) (hn : (sized d).length < n)
    (hlt : (sized d).length < 2147483648) :
    (Part.data d).ReadAs (sp.decodeField sub f) (sp.scalarBack back f target) := by
  rw [sized_length] at hn hlt
  refine ⟨Nat.zero_lt_succ _, rfl, fun rest => ?_⟩
  have hvalue := decodeSized_back hsub f target d rest hd (by omega) (by omega)
  rw [SprotoInstance.decodeField, if_neg harray, SprotoInstance.decodeScalar,
    if_pos (Part.word_data d)]
  obtain hf | hf := hf
  · simp only [hf, SprotoInstance.scalarBack]
    exact congrArg (Option.map some) hvalue
  · simp only [hf, SprotoInstance.scalarBack]
    exact congrArg (Option.map some) hvalue

theorem integer_read (sp : SprotoInstance) (sub : SubDecode) (back : SprotoType → Value → Value)
    (f : SprotoField) (x : Integer) (harray : ¬ f.array = true) (hf : f.type = .integer) :
    (integerPart x.value).ReadAs (sp.decodeField sub f)
      (sp.scalarBack back f (.integer x)) := by
  have hback : sp.scalarBack back f (.integer x) = .integer (readInteger x.value) := by
    simp only [SprotoInstance.scalarBack, hf]
    rfl
  rw [hback]
  cases hp : integerPart x.value with
  | inline v =>
    obtain ⟨hv, hread⟩ := integerPart_inline _ _ hp
    exact inline_read sp sub f v hv harray _ (.inl ⟨hf, by rw [hread]⟩)
  | data d =>
    refine ⟨Nat.zero_lt_succ _, rfl, fun rest => ?_⟩
    rw [SprotoInstance.decodeField, if_neg harray, SprotoInstance.decodeScalar,
      if_pos (Part.word_data d), Part.bytes]
    simp only [hf, decodeInteger_bytes _ d rest hp, Option.map_some]

/-- What stands for a field in a message is read as the field's value. -/
theorem decodeField_back (hsub : BackOk sub wire back n) (indata : Value) (f : SprotoField)
    (p : Option Part) (hp : sp.fieldPart wire indata f = some p)
    (hn : ∀ q ∈ p, q.bytes.length < n) (hlt : ∀ q ∈ p, q.bytes.length < 2147483648) :
    Option.Rel (Part.ReadAs (sp.decodeField sub f)) p (sp.fieldBack back indata f) := by
  unfold SprotoInstance.fieldPart at hp
  unfold SprotoInstance.fieldBack
  split at hp
  · cases hp
  by_cases harray : f.array = true
  · simp only [if_pos harray, Option.map_eq_some_iff] at hp ⊢
    obtain ⟨d, hd, rfl⟩ := hp
    have hn := hn _ rfl
    have hlt := hlt _ rfl
    rw [Part.bytes, sized_length] at hn hlt
    refine .some ⟨Nat.zero_lt_succ _, rfl, fun rest => ?_⟩
    rw [SprotoInstance.decodeField, if_pos harray, if_pos (Part.word_data d), Part.bytes,
      decodeItems_back hsub f _ d rest hd (by omega) (by omega), Option.map_some,
      setItems_back f _ d rest hd (by omega)]
  · rw [if_neg harray] at hp ⊢
    cases hm : indata.member f.name with
    | none =>
      rw [hm] at hp
      cases hp
      exact .none
    | some target =>
      simp only [hm] at hp
      rw [Option.map_some]
      cases hf : f.type with
      | integer =>
        simp only [hf, Option.map_eq_some_iff] at hp
        obtain ⟨x, hx, rfl⟩ := hp
        have htarget : target = .integer x := by
          unfold Value.integer? at hx
          split at hx
          · cases hx
            rfl
          · cases hx
        rw [htarget]
        exact .some (integer_read sp sub back f x harray hf)
      | boolean =>
        simp only [hf, Option.some.injEq] at hp
        subst hp
        have hlt : target.booleanCode < 0x7fff := by
          obtain h | h := target.booleanCode_cases <;> omega
        refine .some (inline_read sp sub f _ hlt harray _ (.inr ⟨hf, ?_⟩))
        simp only [SprotoInstance.scalarBack, hf]
      | string =>
        simp only [hf, Option.map_eq_some_iff] at hp
        obtain ⟨d, hd, rfl⟩ := hp
        exact .some (scalar_read hsub f target d harray (.inl hf) hd (hn _ rfl) (hlt _ rfl))
      | struct =>
        simp only [hf, Option.map_eq_some_iff] at hp
        obtain ⟨d, hd, rfl⟩ := hp
        exact .some (scalar_read hsub f target d harray (.inr hf) hd (hn _ rfl) (hlt _ rfl))

end Decoded

end Sdk

end Skyext
