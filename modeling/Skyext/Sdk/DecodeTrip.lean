import Skyext.Sdk.DecodeWire

namespace Skyext
set_option autoImplicit true

namespace Sdk

theorem searchTag_spec {fs : List SprotoField} (hs : fs.Pairwise fun g g' => g.tag < g'.tag)
    (i : Nat) (hi : i < fs.length) (first last : Nat) (hfirst : first ≤ i) (hlast : i < last)
    (hle : last ≤ fs.length) : searchTag fs fs[i].tag first last = some fs[i] := by
  have hlt := List.pairwise_iff_getElem.mp hs
  induction hn : last - first using Nat.strong_induction_on generalizing first last with
  | _ n ih =>
    have hmid : (first + last) / 2 < fs.length := by omega
    rw [searchTag, if_pos (by omega)]
    simp only [List.getElem?_eq_getElem hmid, Option.bind_some]
    obtain h | h | h := Nat.lt_trichotomy ((first + last) / 2) i
    · have htag := hlt _ _ hmid hi h
      rw [if_neg (by omega), if_pos htag]
      exact ih _ (by omega) _ _ (by omega) hlast hle rfl
    · simp only [h, if_true]
    · have htag := hlt _ _ hi hmid h
      rw [if_neg (by omega), if_neg (by omega)]
      exact ih _ (by omega) _ _ hfirst h (by omega) rfl

theorem findTag_field (st : SprotoType) (f : SprotoField) (hf : f ∈ st.f) :
    findTag st f.tag = some (some f) := by
  obtain ⟨i, hi, rfl⟩ := List.getElem_of_mem hf
  unfold findTag
  cases hb : st.base with
  | none =>
    simp only [searchTag_spec st.sorted i hi 0 _ (Nat.zero_le i) hi (Nat.le_refl _)]
  | some b =>
    have htag : st.f[i].tag = b + i := by
      have h : (st.f.map SprotoField.tag)[i]? = (List.range' b st.f.length)[i]? := by
        rw [st.base_eq b hb]
      rw [List.getElem?_map, List.getElem?_eq_getElem hi, List.getElem?_range' hi,
        Option.map_some, Option.some.injEq] at h
      omega
    simp only [htag, Nat.add_sub_cancel_left, List.getElem?_eq_getElem hi, Option.map_some]
    exact if_neg (by omega)

/-- A message has fewer words than there are tags. -/
theorem words_length_le {part : SprotoField → Option (Option Part)} (fs : List SprotoField)
    (hs : fs.Pairwise fun g g' => g.tag < g'.tag) (next : Nat) (hnext : ∀ f ∈ fs, next ≤ f.tag)
    (hle : next ≤ 32767) (ps : List (SprotoField × Part)) (hps : gather part fs = some ps) :
    (words next ps).length + next ≤ 32767 := by
  induction fs generalizing next ps with
  | nil =>
    cases hps
    exact (Nat.zero_add next).symm ▸ hle
  | cons f fs ih =>
    obtain ⟨hf, hs⟩ := List.pairwise_cons.mp hs
    simp only [gather, Option.bind_eq_some_iff, Option.map_eq_some_iff] at hps
    obtain ⟨p, -, qs, hqs, rfl⟩ := hps
    have htag := f.tag_le
    have hmem := hnext f List.mem_cons_self
    cases p with
    | none => exact ih hs next (fun g hg => hnext g (List.mem_cons_of_mem f hg)) hle qs hqs
    | some p =>
      have hrest := ih hs (f.tag + 1) hf (by omega) qs hqs
      simp only [Option.map_some, Option.toList_some, List.singleton_append, words,
        List.length_append, List.length_cons]
      split <;> simp only [List.length_cons, List.length_nil] <;> omega

section Read

variable {st : SprotoType} {read : SprotoField → Nat → Bytes → Option (Option Value)}
  {m : List (String × Value)} {n : Nat}

theorem word_gap (stream datastream : Bytes) (size next tag : Nat) (hgap : next < tag)
    (htag : tag ≤ 32766) :
    Decode.word st read
      ⟨littleEndian 2 ((tag - next - 1) * 2 + 1 : Nat) ++ stream, datastream, size, next, m⟩ =
        some ⟨stream, datastream, size, tag, m⟩ := by
  have hodd : ((tag - next - 1) * 2 + 1) % 2 = 1 := by omega
  have hhalf : next + 1 + ((tag - next - 1) * 2 + 1) / 2 = tag := by omega
  simp only [Decode.word]
  rw [toWord_littleEndian _ (by omega), if_pos hodd, hhalf, drop_littleEndian]

theorem word_field (f : SprotoField) (hf : f ∈ st.f) (p : Part) (v : Value)
    (hp : p.ReadAs (read f) v) (stream rest : Bytes) (size : Nat)
    (hlt : p.bytes.length < 2147483648) :
    Decode.word st read
      ⟨littleEndian 2 (p.word : Nat) ++ stream, p.bytes ++ rest, p.bytes.length + size, f.tag, m⟩ =
        some ⟨stream, rest, size, f.tag + 1, Value.assign f.name v m⟩ := by
  obtain ⟨hword, heven, hread⟩ := hp
  simp only [Decode.word]
  rw [toWord_littleEndian _ hword, if_neg (by omega), drop_littleEndian]
  simp only [findTag_field st f hf, Option.bind_some, hread rest, Option.map_some]
  cases p with
  | inline n =>
    rw [if_neg (Part.word_inline n), Part.bytes, List.length_nil, Nat.zero_add]
    rfl
  | data d =>
    rw [Part.bytes, sized_length] at hlt
    rw [if_pos (Part.word_data d), Part.bytes, Decode.cut]
    simp only [toDword_sized d rest (by omega), sized_length]
    rw [if_neg (by omega), if_neg (by omega)]
    have hdrop : (sized d ++ rest).drop (d.length + 4) = rest := by
      rw [Nat.add_comm, ← sized_length, List.drop_left]
    have hsize : 4 + d.length + size - (d.length + 4) = size := by omega
    simp only [hdrop, hsize, Option.bind_some, Option.elim_some]

theorem wordsBytes_cons (w : Nat) (ws : List Nat) :
    wordsBytes (w :: ws) = littleEndian 2 w ++ wordsBytes ws := List.flatMap_cons

theorem partsBytes_cons (f : SprotoField) (p : Part) (ps : List (SprotoField × Part)) :
    partsBytes ((f, p) :: ps) = p.bytes ++ partsBytes ps := List.flatMap_cons

theorem words_read {part : SprotoField → Option (Option Part)} {back : SprotoField → Option Value}
    (fs : List SprotoField) (hmem : ∀ f ∈ fs, f ∈ st.f)
    (hs : fs.Pairwise fun g g' => g.tag < g'.tag) (next : Nat) (hnext : ∀ f ∈ fs, next ≤ f.tag)
    (ps : List (SprotoField × Part)) (hps : gather part fs = some ps)
    (hlt : (partsBytes ps).length < n) (hle : n ≤ 2147483648)
    (hread : ∀ f p, part f = some p → (∀ q ∈ p, q.bytes.length < n) →
      Option.Rel (Part.ReadAs (read f)) p (back f)) (stream rest : Bytes) (k : Nat) :
    ∃ next', Decode.words st read (words next ps).length
      ⟨wordsBytes (words next ps) ++ stream, partsBytes ps ++ rest, (partsBytes ps).length + k,
        next, m⟩ = some ⟨stream, rest, k, next', members back fs m⟩ := by
  induction fs generalizing next ps m with
  | nil =>
    cases hps
    exact ⟨next, by simp [words, partsBytes, wordsBytes, Decode.words, members]⟩
  | cons f fs ih =>
    obtain ⟨hf, hs⟩ := List.pairwise_cons.mp hs
    have hmem' : ∀ g ∈ fs, g ∈ st.f := fun g hg => hmem g (List.mem_cons_of_mem f hg)
    simp only [gather, Option.bind_eq_some_iff, Option.map_eq_some_iff] at hps
    obtain ⟨p, hp, qs, hqs, rfl⟩ := hps
    cases p with
    | none =>
      have hback : back f = none := by
        have hrel := hread f none hp (fun q hq => absurd hq (Option.not_mem_none q))
        cases hb : back f with
        | none => rfl
        | some v =>
          rw [hb] at hrel
          cases hrel
      rw [members, List.foldl_cons, hback]
      exact ih hmem' hs next (fun g hg => hnext g (List.mem_cons_of_mem f hg)) qs hqs hlt
    | some p =>
      simp only [Option.map_some, Option.toList_some, List.singleton_append] at hlt ⊢
      rw [partsBytes_cons, List.length_append] at hlt
      have hrel := hread f (some p) hp (fun q hq => by
        cases hq
        omega)
      cases hb : back f with
      | none =>
        rw [hb] at hrel
        cases hrel
      | some v =>
        rw [hb] at hrel
        cases hrel with
        | some hp =>
          obtain ⟨next', hrest⟩ := ih (m := Value.assign f.name v m) hmem' hs (f.tag + 1) hf qs hqs
            (by omega)
          have hfield : Decode.words st read ((words (f.tag + 1) qs).length + 1)
              ⟨wordsBytes (p.word :: words (f.tag + 1) qs) ++ stream,
                partsBytes ((f, p) :: qs) ++ rest, (partsBytes ((f, p) :: qs)).length + k, f.tag,
                m⟩ = some ⟨stream, rest, k, next', members back (f :: fs) m⟩ := by
            rw [Decode.words, wordsBytes_cons, partsBytes_cons, List.append_assoc,
              List.append_assoc, List.length_append, Nat.add_assoc,
              word_field f (hmem f List.mem_cons_self) p v hp _ _ _ (by omega), Option.bind_some,
              hrest, members, members, List.foldl_cons, hb]
            rfl
          refine ⟨next', ?_⟩
          by_cases hgap : next < f.tag
          · have hwords : words next ((f, p) :: qs) =
                ((f.tag - next - 1) * 2 + 1) :: p.word :: words (f.tag + 1) qs := by
              rw [words, if_pos hgap]
              rfl
            rw [hwords, List.length_cons, List.length_cons, Decode.words, wordsBytes_cons,
              List.append_assoc, word_gap _ _ _ _ _ hgap f.tag_le, Option.bind_some]
            exact hfield
          · have hwords : words next ((f, p) :: qs) = p.word :: words (f.tag + 1) qs := by
              rw [words, if_neg hgap]
              rfl
            have hsame : next = f.tag :=
              Nat.le_antisymm (hnext f List.mem_cons_self) (Nat.not_lt.mp hgap)
            rw [hwords, List.length_cons, hsame]
            exact hfield

theorem decodeFields_back {part : SprotoField → Option (Option Part)}
    {back : SprotoField → Option Value} (ps : List (SprotoField × Part))
    (hps : gather part st.f = some ps) (hlt : (partsBytes ps).length < n) (hle : n ≤ 2147483648)
    (hread : ∀ f p, part f = some p → (∀ q ∈ p, q.bytes.length < n) →
      Option.Rel (Part.ReadAs (read f)) p (back f)) (rest : Bytes) (k : Nat) :
    SprotoInstance.decodeFields st read (message ps ++ rest) ((message ps).length + k) =
      some ((message ps).length, .object (members back st.f [])) := by
  obtain ⟨next', hwords⟩ := words_read (m := []) st.f (fun _ h => h) st.sorted 0
    (fun _ _ => Nat.zero_le _) ps hps hlt hle hread (partsBytes ps ++ rest) rest k
  have hcount := words_length_le st.f st.sorted 0 (fun _ _ => Nat.zero_le _) (by decide) ps hps
  have hdrop : (wordsBytes (words 0 ps) ++ (partsBytes ps ++ rest)).drop
      ((words 0 ps).length * 2) = partsBytes ps ++ rest :=
    List.drop_left' (by rw [wordsBytes_length, Nat.mul_comm])
  have hsize : 2 + 2 * (words 0 ps).length + (partsBytes ps).length + k - 2 -
      (words 0 ps).length * 2 = (partsBytes ps).length + k := by omega
  rw [SprotoInstance.decodeFields, message_length, if_neg (by omega), message, List.append_assoc,
    List.append_assoc]
  simp only [toWord_littleEndian (words 0 ps).length (by omega), drop_littleEndian, hdrop, hsize]
  rw [if_neg (by omega), hwords]
  simp only [Option.map_some, Nat.add_sub_cancel]

end Read

theorem sprotoDecode_back (sp : SprotoInstance) (level depth : Nat) :
    BackOk (sp.sprotoDecode depth) (sp.structBytes level) (sp.structBack level)
      (min depth 2147483648) := by
  induction level generalizing depth with
  | zero =>
    intro st v d rest k hd hn
    rw [SprotoInstance.structBytes] at hd
    split at hd
    · next hf =>
      cases hd
      cases depth with
      | zero => omega
      | succ depth =>
        have hnone : gather (fun _ => none) st.f = some [] := by
          rw [hf]
          rfl
        have hfields : SprotoInstance.decodeFields st (sp.decodeField (sp.sprotoDecode depth))
            (message [] ++ rest) ((message []).length + k) =
              some ((message []).length, .object (members (fun _ => none) st.f [])) :=
          decodeFields_back [] hnone Nat.one_pos (by decide) (fun _ _ h => by cases h) rest k
        rw [hf] at hfields
        exact hfields
    · cases hd
  | succ level ih =>
    intro st v d rest k hd hn
    simp only [SprotoInstance.structBytes, Option.map_eq_some_iff] at hd
    obtain ⟨ps, hps, rfl⟩ := hd
    cases depth with
    | zero => omega
    | succ depth =>
      have hlen := message_length ps
      exact decodeFields_back ps hps (by omega) (Nat.min_le_right depth 2147483648)
        (fun f p hp hq => decodeField_back (ih depth) v f p hp hq fun q hmem =>
          Nat.lt_of_lt_of_le (hq q hmem) (Nat.min_le_right depth 2147483648)) rest k

theorem sprotoDecode_message (sp : SprotoInstance) (st : SprotoType) (indata : Value) (d : Bytes)
    (hd : sp.structBytes 64 st indata = some d) (hlt : d.length < 2147483648) (rest : Bytes) :
    sp.sprotoDecode ((d ++ rest).length + 1) st (d ++ rest) (d ++ rest).length =
      some (d.length, sp.structBack 64 st indata) := by
  have hdepth : d.length < min ((d ++ rest).length + 1) 2147483648 := by
    rw [List.length_append]
    omega
  have hback := sprotoDecode_back sp 64 ((d ++ rest).length + 1) st indata d rest rest.length hd
    hdepth
  rwa [← List.length_append] at hback

/-- For every schema and every value: a message that the client writes is read as the value as far
as the schema knows of it, and its end is found, whatever stands behind it. -/
theorem decode_encode_message (sp : SprotoInstance) (st : SprotoType) (indata : Value)
    (r : List (Option UInt8)) (h : sp.encode st indata = some r) (hlt : r.length < 2147483648)
    (rest : Bytes) :
    sp.decode st (toBytes r ++ rest) = some (sp.structBack 64 st indata) ∧
      sp.objlen st (toBytes r ++ rest) = some r.length := by
  rw [encode_eq, Option.map_eq_some_iff] at h
  obtain ⟨d, hd, rfl⟩ := h
  rw [List.length_map] at hlt
  have hread := sprotoDecode_message sp st indata d hd hlt rest
  rw [toBytes_some, SprotoInstance.decode, SprotoInstance.objlen, hread, List.length_map]
  exact ⟨rfl, rfl⟩

/-- A type that leaves out two tags. -/
def gapType : SprotoType :=
  ⟨[{ tag := 0, name := "a", type := .string }, { tag := 3, name := "b", type := .integer }],
    none, 3, rfl, by decide, fun b h => absurd h (Option.not_mem_none b), by decide⟩

theorem decode_encode_message_gap :
    SprotoInstance.decode [] gapType (toBytes ([2, 0, 5, 0, 16, 0].map some) ++ [7]) =
      some (.object [("b", .integer (.number 7))]) ∧
    SprotoInstance.objlen [] gapType (toBytes ([2, 0, 5, 0, 16, 0].map some) ++ [7]) = some 6 :=
  decode_encode_message [] gapType
    (.object [("b", .integer (.number 7)), ("c", .null)]) _ (by decide) (by decide) [7]

/-- What the client packs is read as the value, although unpacking fills up its last eight bytes. -/
theorem pdecode_pencode (sp : SprotoInstance) (st : SprotoType) (indata : Value)
    (r : List (Option UInt8)) (h : sp.encode st indata = some r) (hlt : r.length ≤ 536870912) :
    ∃ e, sp.pencode st indata = some e ∧
      sp.pdecode st (toBytes e) = some (sp.structBack 64 st indata) := by
  refine ⟨pack (toBytes r), by rw [SprotoInstance.pencode, h, Option.map_some], ?_⟩
  rw [encode_eq, Option.map_eq_some_iff] at h
  obtain ⟨d, hd, rfl⟩ := h
  rw [List.length_map] at hlt
  rw [toBytes_some]
  obtain ⟨z, hunpack, -⟩ := unpack_zeros d hlt
  rw [SprotoInstance.pdecode, hunpack, toBytes_some, SprotoInstance.decode,
    sprotoDecode_message sp st indata d hd (by omega)]
  rfl

theorem pdecode_pencode_gap : ∃ e,
    SprotoInstance.pencode [] gapType (.object [("b", .integer (.number 7))]) = some e ∧
    SprotoInstance.pdecode [] gapType (toBytes e) =
      some (.object [("b", .integer (.number 7))]) :=
  pdecode_pencode [] gapType (.object [("b", .integer (.number 7))])
    ([2, 0, 5, 0, 16, 0].map some) (by decide) (by decide)

end Sdk

end Skyext
