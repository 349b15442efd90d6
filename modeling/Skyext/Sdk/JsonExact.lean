import Skyext.Sdk.JsonTokens

namespace Skyext
set_option autoImplicit true

namespace Sdk
namespace Json

section Map

variable (h : α → β)

theorem mapItems_eq (items : List (Json α)) : mapItems h items = items.map (map h) := by
  induction items with
  | nil => rfl
  | cons v items ih => rw [mapItems, ih, List.map_cons]

theorem mapMembers_eq (members : List (Text × Json α)) :
    mapMembers h members = members.map fun m => (m.1, map h m.2) := by
  induction members with
  | nil => rfl
  | cons m members ih =>
    obtain ⟨k, v⟩ := m
    rw [mapMembers, ih, List.map_cons]

theorem setMember_map (members : List (Text × Json α)) (k : Text) (v : Json α) :
    mapMembers h (setMember members k v) = setMember (mapMembers h members) k (map h v) := by
  have hkeys : (mapMembers h members).map Prod.fst = members.map Prod.fst := by
    rw [mapMembers_eq, List.map_map]
    rfl
  rw [setMember, setMember, hkeys, mapMembers_eq, mapMembers_eq]
  split
  · rw [List.map_map, List.map_map]
    refine List.map_congr_left fun m _ => ?_
    simp only [Function.comp_apply]
    split <;> rfl
  · rw [List.map_append]
    rfl

def Frame.map : Frame α → Frame β
  | .array items => .array (mapItems h items)
  | .object members k => .object (mapMembers h members) k

def State.map : State α → State β
  | .value stack => .value (stack.map (Frame.map h))
  | .firstItem stack => .firstItem (stack.map (Frame.map h))
  | .afterItem items stack => .afterItem (mapItems h items) (stack.map (Frame.map h))
  | .firstName stack => .firstName (stack.map (Frame.map h))
  | .name members stack => .name (mapMembers h members) (stack.map (Frame.map h))
  | .colon members k stack => .colon (mapMembers h members) k (stack.map (Frame.map h))
  | .afterMember members stack => .afterMember (mapMembers h members) (stack.map (Frame.map h))
  | .done v => .done (Json.map h v)

theorem complete_map (v : Json α) (stack : List (Frame α)) :
    (complete v stack).map h = complete (map h v) (stack.map (Frame.map h)) := by
  cases stack with
  | nil => rfl
  | cons frame stack =>
    cases frame with
    | array items =>
      simp only [complete, State.map, List.map_cons, Frame.map, mapItems_eq, List.map_append,
        List.map_nil]
    | object members k =>
      simp only [complete, State.map, List.map_cons, Frame.map, setMember_map]

end Map

theorem begin_mark (leaf : Token → Option α) (stack : List (Frame α)) (c : UInt16) :
    begin leaf stack (.mark c) =
      if c = unit '[' then some (.firstItem stack)
      else if c = unit '{' then some (.firstName stack)
      else none := rfl

theorem begin_scalar {t : Token} (ht : ∀ c, t ≠ .mark c) (leaf : Token → Option α)
    (stack : List (Frame α)) :
    begin leaf stack t = (leaf t).map fun a => complete (.scalar a) stack := by
  cases t with
  | mark c => exact absurd rfl (ht c)
  | word w => rfl
  | number n => rfl
  | string raw => rfl

/-- Tokens that stand for others, with the values they stand for. -/
structure Stands (h : α → β) (q : Token → Token) (leaf : Token → Option α)
    (key : Token → Option Text) (leaf' : Token → Option β) (key' : Token → Option Text) :
    Prop where
  mark : ∀ c t, q t = .mark c ↔ t = .mark c
  leaf : ∀ t a, leaf t = some a → leaf' (q t) = some (h a)
  key : ∀ t k, key t = some k → key' (q t) = some k

namespace Stands

variable {h : α → β} {q : Token → Token}
  {leaf : Token → Option α} {key : Token → Option Text}
  {leaf' : Token → Option β} {key' : Token → Option Text}

theorem begin (hs : Stands h q leaf key leaf' key') {stack : List (Frame α)} {t : Token}
    {s : State α} (hb : begin leaf stack t = some s) :
    Json.begin leaf' (stack.map (Frame.map h)) (q t) = some (s.map h) := by
  by_cases hmark : ∃ c, t = .mark c
  · obtain ⟨c, rfl⟩ := hmark
    rw [(hs.mark c _).mpr rfl]
    rw [begin_mark] at hb ⊢
    by_cases harray : c = unit '['
    · rw [if_pos harray] at hb ⊢
      cases hb
      rfl
    rw [if_neg harray] at hb ⊢
    by_cases hobject : c = unit '{'
    · rw [if_pos hobject] at hb ⊢
      cases hb
      rfl
    · rw [if_neg hobject] at hb
      cases hb
  · have ht : ∀ c, t ≠ .mark c := fun c hc => hmark ⟨c, hc⟩
    have hq : ∀ c, q t ≠ .mark c := fun c hc => ht c ((hs.mark c t).mp hc)
    rw [begin_scalar ht] at hb
    rw [begin_scalar hq]
    obtain ⟨a, ha, rfl⟩ := Option.map_eq_some_iff.mp hb
    rw [hs.leaf t a ha, Option.map_some, complete_map]
    rfl

theorem name (hs : Stands h q leaf key leaf' key') {t : Token} {f : Text → State α}
    {f' : Text → State β} (hf : ∀ k, (f k).map h = f' k) {s : State α}
    (hn : (key t).map f = some s) : (key' (q t)).map f' = some (s.map h) := by
  obtain ⟨k, hk, rfl⟩ := Option.map_eq_some_iff.mp hn
  rw [hs.key t k hk, Option.map_some, hf]

theorem next (hs : Stands h q leaf key leaf' key') {s s' : State α} {t : Token}
    (hn : next leaf key s t = some s') :
    Json.next leaf' key' (s.map h) (q t) = some (s'.map h) := by
  cases s with
  | value stack => exact hs.begin hn
  | firstItem stack =>
    simp only [Json.next] at hn
    split at hn
    · next hend =>
      cases hn
      rw [complete_map]
      exact if_pos ((hs.mark _ _).mpr hend)
    · next hend =>
      simp only [Json.next, State.map, hs.mark, if_neg hend]
      exact hs.begin hn
  | afterItem items stack =>
    simp only [Json.next] at hn
    split at hn
    · next hmore =>
      cases hn
      exact if_pos ((hs.mark _ _).mpr hmore)
    · next hmore =>
      split at hn
      · next hend =>
        cases hn
        rw [complete_map]
        simp only [Json.next, State.map, hs.mark, if_neg hmore, if_pos hend, map]
      · cases hn
  | firstName stack =>
    simp only [Json.next] at hn
    split at hn
    · next hend =>
      cases hn
      rw [complete_map]
      exact if_pos ((hs.mark _ _).mpr hend)
    · next hend =>
      simp only [Json.next, State.map, hs.mark, if_neg hend]
      exact hs.name (fun _ => rfl) hn
  | name members stack => exact hs.name (fun _ => rfl) hn
  | colon members k stack =>
    simp only [Json.next] at hn
    split at hn
    · next hcolon =>
      cases hn
      exact if_pos ((hs.mark _ _).mpr hcolon)
    · cases hn
  | afterMember members stack =>
    simp only [Json.next] at hn
    split at hn
    · next hmore =>
      cases hn
      exact if_pos ((hs.mark _ _).mpr hmore)
    · next hmore =>
      split at hn
      · next hend =>
        cases hn
        rw [complete_map]
        simp only [Json.next, State.map, hs.mark, if_neg hmore, if_pos hend, map]
      · cases hn
  | done v => cases hn

theorem run (hs : Stands h q leaf key leaf' key') (ts : List Token) {s s' : State α}
    (hr : ts.foldlM (Json.next leaf key) s = some s') :
    (ts.map q).foldlM (Json.next leaf' key') (s.map h) = some (s'.map h) := by
  induction ts generalizing s with
  | nil =>
    cases hr
    rfl
  | cons t ts ih =>
    rw [List.foldlM_cons] at hr
    obtain ⟨mid, hmid, hrest⟩ := Option.bind_eq_some_iff.mp hr
    rw [List.map_cons, List.foldlM_cons, hs.next hmid]
    exact ih hrest

theorem parseTokens (hs : Stands h q leaf key leaf' key') {ts : List Token} {v : Json α}
    (hp : parseTokens leaf key ts = some v) :
    Json.parseTokens leaf' key' (ts.map q) = some (map h v) := by
  obtain ⟨s, hr, hv⟩ := Option.bind_eq_some_iff.mp hp
  have hrun := hs.run ts hr
  cases s with
  | done w =>
    cases hv
    exact Option.bind_eq_some_iff.mpr ⟨_, hrun, rfl⟩
  | _ => cases hv

end Stands

mutual

theorem map_eq_iff {f g : α → β} : (v : Json α) →
    (map f v = map g v ↔ ∀ a ∈ scalars v, f a = g a)
  | .scalar a => by simp [map, scalars]
  | .array items => by simpa [map, scalars] using mapItems_eq_iff items
  | .object members => by simpa [map, scalars] using mapMembers_eq_iff members

theorem mapItems_eq_iff {f g : α → β} : (items : List (Json α)) →
    (mapItems f items = mapItems g items ↔ ∀ a ∈ itemScalars items, f a = g a)
  | [] => by simp [mapItems, itemScalars]
  | v :: items => by
    rw [mapItems, mapItems, List.cons.injEq, map_eq_iff v, mapItems_eq_iff items, itemScalars,
      List.forall_mem_append]

theorem mapMembers_eq_iff {f g : α → β} : (members : List (Text × Json α)) →
    (mapMembers f members = mapMembers g members ↔ ∀ a ∈ memberScalars members, f a = g a)
  | [] => by simp [mapMembers, memberScalars]
  | (k, v) :: members => by
    rw [mapMembers, mapMembers, List.cons.injEq, Prod.mk.injEq, map_eq_iff v,
      mapMembers_eq_iff members, memberScalars, List.forall_mem_append]
    simp

end

/-- An unsafe integer as the string it is parsed as. -/
def quoted : Scalar → Scalar
  | .number n =>
    if !n.isFloat && !isSafeInteger n then .string (sentinel :: n.text ++ [sentinel]) else .number n
  | a => a

theorem decodeString_plain {raw : Text} (h : ∀ c ∈ raw, c ≠ reverseSolidus ∧ ¬ c < 32) :
    decodeString raw = some raw := by
  induction raw with
  | nil => rfl
  | cons c raw ih =>
    obtain ⟨hc, hlt⟩ := h c List.mem_cons_self
    rw [decodeString.eq_def]
    simp only [if_neg hc, if_neg hlt]
    rw [ih fun c hc => h c (List.mem_cons_of_mem _ hc)]
    rfl

variable {n : Number}

theorem valid_int (hn : n.valid = true) : n.int ≠ [] ∧ n.int.all isDigit = true := by
  simp only [Number.valid, Bool.and_eq_true, decide_eq_true_eq] at hn
  exact hn.1.1.1

theorem decodeString_quoted (hfloat : n.isFloat = false) (hint : n.int.all isDigit = true) :
    decodeString (sentinel :: n.text ++ [sentinel]) = some (sentinel :: n.text ++ [sentinel]) := by
  have hsentinel : sentinel ≠ reverseSolidus ∧ ¬ sentinel < 32 := by decide
  refine decodeString_plain fun c hc => ?_
  rcases List.mem_append.mp hc with hc | hc
  · rcases List.mem_cons.mp hc with rfl | hc
    · exact hsentinel
    · obtain ⟨h₁, _, h₃⟩ := (text_plain hfloat hint).2 c hc
      exact ⟨h₁, h₃⟩
  · rw [List.mem_singleton.mp hc]
    exact hsentinel

theorem sentinelInt_quoted (hfloat : n.isFloat = false) (hn : n.valid = true) :
    sentinelInt (sentinel :: n.text ++ [sentinel]) = some (intValue n.minus n.int) := by
  obtain ⟨hne, hall⟩ := valid_int hn
  have hminus : scanMinus n.text = (n.minus, n.int) := by
    rw [(text_plain hfloat hall).1, minusText]
    cases n.minus with
    | true => rfl
    | false =>
      refine scanMinus_none fun c hc => ?_
      exact (isDigit_plain (List.all_eq_true.mp hall c (List.mem_of_mem_head? hc))).2.2.2.2
  simp [sentinelInt, hminus, hne, hall]

theorem unsafe_float {n : Number} (h : (!n.isFloat && !isSafeInteger n) = true) :
    n.isFloat = false := by
  simp only [Bool.and_eq_true, Bool.not_eq_true'] at h
  exact h.1

theorem quote_mark (c : UInt16) (t : Token) : t.quote = .mark c ↔ t = .mark c := by
  cases t with
  | number n =>
    simp only [Token.quote]
    split <;> exact iff_of_false (by rintro ⟨⟩) (by rintro ⟨⟩)
  | mark c => rfl
  | word w => rfl
  | string raw => rfl

theorem quote_key {t : Token} {k : Text} (h : nameOf t = some k) : nameOf t.quote = some k := by
  cases t with
  | string raw => exact h
  | _ => cases h

theorem leafValue_number {a : Scalar} (h : leafValue (.number n) = some a) :
    n.valid = true ∧ a = .number n := by
  rw [leafValue] at h
  split at h
  · next hn =>
    cases h
    exact ⟨hn, rfl⟩
  · cases h

theorem leafValue_word {w : Text} {a : Scalar} (h : leafValue (.word w) = some a) :
    quoted a = a ∧ exact a = a := by
  simp only [leafValue] at h
  split at h
  · cases h
    exact ⟨rfl, rfl⟩
  split at h
  · cases h
    exact ⟨rfl, rfl⟩
  split at h
  · cases h
    exact ⟨rfl, rfl⟩
  · cases h

/-- What a token becomes by the quoting, and by the reviver after it. -/
theorem leafValue_quote {t : Token} {a : Scalar} (h : leafValue t = some a) :
    leafValue t.quote = some (quoted a) ∧ revive (quoted a) = revive (exact a) := by
  cases t with
  | mark c => cases h
  | word w =>
    obtain ⟨hquoted, hexact⟩ := leafValue_word h
    rw [hquoted, hexact]
    exact ⟨h, rfl⟩
  | number n =>
    obtain ⟨hn, rfl⟩ := leafValue_number h
    simp only [Token.quote, quoted, exact]
    by_cases hunsafe : (!n.isFloat && !isSafeInteger n) = true
    · have hfloat := unsafe_float hunsafe
      rw [if_pos hunsafe, if_pos hunsafe, if_pos hunsafe, leafValue,
        decodeString_quoted hfloat (valid_int hn).2]
      refine ⟨rfl, ?_⟩
      rw [revive, sentinelInt_quoted hfloat hn]
      rfl
    · rw [if_neg hunsafe, if_neg hunsafe, if_neg hunsafe]
      exact ⟨h, rfl⟩
  | string raw =>
    obtain ⟨s, hs, rfl⟩ := Option.map_eq_some_iff.mp h
    exact ⟨h, rfl⟩

/-- `leafValue` with the reviver after it. -/
def revivedLeaf (t : Token) : Option Scalar := (leafValue t).map revive

theorem stands_quoted : Stands quoted Token.quote leafValue nameOf leafValue nameOf :=
  ⟨quote_mark, fun _ _ h => (leafValue_quote h).1, fun _ _ h => quote_key h⟩

theorem stands_revived : Stands revive id leafValue nameOf revivedLeaf nameOf :=
  ⟨fun _ _ => Iff.rfl, fun t a h => by rw [id, revivedLeaf, h, Option.map_some], fun _ _ h => h⟩

theorem stands_exact :
    Stands (revive ∘ exact) Token.quote leafValue nameOf revivedLeaf nameOf := by
  refine ⟨quote_mark, fun t a h => ?_, fun _ _ h => quote_key h⟩
  obtain ⟨hleaf, hrevive⟩ := leafValue_quote h
  rw [revivedLeaf, hleaf, Option.map_some, hrevive]
  rfl

theorem lex_quote (text : Text) :
    lex (quoteUnsafeIntegers text) = (lex text).map (List.map Token.quote) :=
  lexFrom_quote text.length text (Nat.le_refl _) _ (Nat.le_refl _)

/-- Of valid JSON `parseJson` has the exact integers, and revives strings as well. -/
theorem parseJson_of_parse {text : Text} {v : Json Scalar} (h : parse text = some v) :
    parseJson text = some (map (revive ∘ exact) v) := by
  obtain ⟨ts, hlex, hts⟩ := Option.bind_eq_some_iff.mp h
  have hquoted := stands_quoted.parseTokens hts
  have hrevived := stands_revived.parseTokens hquoted
  rw [List.map_id, stands_exact.parseTokens hts] at hrevived
  rw [parseJson, parse, lex_quote, hlex, Option.map_some, Option.bind_some, hquoted, hrevived,
    Option.map_some]

theorem parseJson_isSome_iff (text : Text) : (parseJson text).isSome ↔ Lenient text := by
  rw [parseJson, Option.isSome_map, parse, lex_quote, Lenient]
  cases lex text with
  | none => simp
  | some ts => simp

theorem revive_exact_iff (a : Scalar) :
    revive (exact a) = exact a ↔ ∀ s, a = .string s → sentinelInt s = none := by
  cases a with
  | string s =>
    simp only [exact, revive, Scalar.string.injEq, forall_eq']
    cases sentinelInt s with
    | none => simp
    | some v => simp
  | number n =>
    refine iff_of_true ?_ (by rintro _ ⟨⟩)
    rw [exact]
    split <;> rfl
  | null => exact iff_of_true rfl (by rintro _ ⟨⟩)
  | bool b => exact iff_of_true rfl (by rintro _ ⟨⟩)
  | bigint v => exact iff_of_true rfl (by rintro _ ⟨⟩)

theorem unmarked_iff (v : Json Scalar) :
    map (revive ∘ exact) v = map exact v ↔ Unmarked v := by
  rw [map_eq_iff]
  simp only [Function.comp_apply, revive_exact_iff]
  exact ⟨fun h s hs => h _ hs s rfl, fun h a ha s has => h s (has ▸ ha)⟩

/-- Parsing is exact but for strings that look like quoted integers, and for what is JSON only with
its unsafe integers as strings. -/
theorem exact_iff (text : Text) :
    Exact text ↔
      (∀ v, parse text = some v → Unmarked v) ∧ (parse text = none → ¬ Lenient text) := by
  rw [Exact, ← parseJson_isSome_iff]
  cases h : parse text with
  | some v =>
    rw [parseJson_of_parse h, Option.map_some, Option.some.injEq, unmarked_iff]
    simp
  | none => simp

/-- A lone minus is a string. -/
theorem parseJson_minus : ¬ Exact (word "-") := by
  intro h
  have hsome := congrArg Option.isSome h
  rw [Option.isSome_map] at hsome
  exact absurd hsome (by decide)

end Json
end Sdk
end Skyext
